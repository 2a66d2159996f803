import Flowchart.Proofs.Flow.Marks
import Flowchart.Proofs.Layout.Blank
import Flowchart.Proofs.Layout.Distances
import Flowchart.Proofs.Route.Routed

/-!
# Nodes that are moved

In exact arithmetic a program is drawn the same way wherever it stands.  From one
place to another all that is drawn of it, with all that is below it, is moved the
same way, and nothing above it or beside it can change more than this.
-/

namespace Flowchart

theorem Point.add_add (first second third : Point Rat) :
    first + second + third = first + (second + third) :=
  (Point.mk.injEq ..).mpr ⟨add_assoc .., add_assoc ..⟩

/-- A node lies elsewhere in another diagram, and all that is drawn of it has
been moved the same way. -/
structure DiagramNode.IsMoved (shift : Point Rat) (node moved : DiagramNode Rat) :
    Prop where
  id : moved.id = node.id
  tag : moved.tag = node.tag
  bounds : moved.bounds = node.bounds.translate shift
  figure : moved.figure = node.figure.map fun figure => figure.translate shift
  anchors : moved.anchors = node.anchors.map fun (anchor, point) =>
    (anchor, point + shift)

theorem DiagramNode.IsMoved.anchor? {shift : Point Rat}
    {node moved : DiagramNode Rat} (isMoved : node.IsMoved shift moved)
    (anchor : Anchor) :
    moved.anchor? anchor = (node.anchor? anchor).map (· + shift) := by
  rw [DiagramNode.anchor?, DiagramNode.anchor?, isMoved.anchors,
    Arrangement.lookup_moved]

/-! ## Arrangements elsewhere -/

namespace Arrangement

variable {shift : Point Rat}

/-- A frame is drawn the same way wherever its corner lies. -/
theorem isMoved_nodeAt (corner shift : Point Rat) (outer other : Option NodeId)
    (level depth : Nat) (tag : Tag) (frame : Frame Rat) :
    (nodeAt corner outer level tag frame).IsMoved shift
      (nodeAt (corner + shift) other depth tag frame) where
  id := rfl
  tag := rfl
  bounds := by
    simp only [nodeAt, Rect.ofTopLeft, Rect.translate, Point.add_x, Point.add_y,
      add_right_comm]
  figure := by
    simp only [nodeAt, Option.map_map, Function.comp_def, Rect.translate,
      Point.add_x, Point.add_y, add_assoc]
  anchors := by
    simp only [nodeAt, List.map_map, Function.comp_def, Point.add_add]

theorem childOrigin_add (corner shift : Point Rat) (frame : Frame Rat)
    (index : Nat) :
    childOrigin (corner + shift) frame index =
      childOrigin corner frame index + shift := by
  refine (Point.mk.injEq ..).mpr ⟨?_, ?_⟩
  · exact add_right_comm ..
  · exact add_right_comm ..

/-- An arrangement is drawn the same way wherever its corner lies. -/
theorem exists_isMoved {arrangement : Arrangement Rat} {corner : Point Rat}
    {outer : Option NodeId} {level : Nat} {node : DiagramNode Rat}
    (nodeIn : node ∈ place corner outer level arrangement) (shift : Point Rat)
    (other : Option NodeId) (depth : Nat) :
    ∃ moved ∈ place (corner + shift) other depth arrangement,
      node.IsMoved shift moved := by
  induction arrangement using Program.childrenInduction
    generalizing corner outer level other depth with
  | step arrangement ih =>
    rcases mem_place.mp nodeIn with rfl | ⟨index, child, isChild, inChild⟩
    · exact ⟨_, self_mem_place _ _ _ _, isMoved_nodeAt ..⟩
    · obtain ⟨moved, movedIn, isMoved⟩ := ih child (List.mem_of_getElem? isChild)
        inChild (some arrangement.label.id) (depth + 1)
      rw [← childOrigin_add] at movedIn
      exact ⟨moved, place_subset isChild _ _ _ movedIn, isMoved⟩

/-- Two arrangements that differ in what is written only are drawn the same
way. -/
theorem exists_isMoved_of_blank {arrangement drawn : Arrangement Rat}
    (same : arrangement.blank Frame.blank = drawn.blank Frame.blank)
    {corner : Point Rat} {outer : Option NodeId} {level : Nat}
    {node : DiagramNode Rat}
    (nodeIn : node ∈ place corner outer level arrangement) (shift : Point Rat)
    (other : Option NodeId) (depth : Nat) :
    ∃ moved ∈ place (corner + shift) other depth drawn,
      node.IsMoved shift moved := by
  have blankIn : node.blank ∈
      place corner outer level (drawn.blank Frame.blank) := by
    rw [← same, place_blank]
    exact List.mem_map_of_mem nodeIn
  obtain ⟨blank, isBlank, isMoved⟩ := exists_isMoved blankIn shift other depth
  rw [place_blank] at isBlank
  obtain ⟨moved, movedIn, rfl⟩ := List.mem_map.mp isBlank
  exact ⟨moved, movedIn, isMoved.id, isMoved.tag, isMoved.bounds, isMoved.figure,
    isMoved.anchors⟩

/-- A node is placed with all that is below it. -/
theorem exists_place_subset {arrangement inner : Arrangement Rat}
    (innerIn : inner ∈ arrangement.preorder) (corner : Point Rat)
    (outer : Option NodeId) (level : Nat) :
    ∃ innerCorner innerOuter innerLevel,
      place innerCorner innerOuter innerLevel inner ⊆
        place corner outer level arrangement := by
  induction arrangement using Program.childrenInduction
    generalizing corner outer level with
  | step arrangement ih =>
    rcases Program.mem_preorder_iff.mp innerIn with
      rfl | ⟨child, childIn, inChild⟩
    · exact ⟨corner, outer, level, List.Subset.refl _⟩
    · obtain ⟨index, isChild⟩ := List.getElem?_of_mem childIn
      obtain ⟨innerCorner, innerOuter, innerLevel, subset⟩ := ih child childIn
        inChild (childOrigin corner arrangement.label index)
        (some arrangement.label.id) (level + 1)
      exact ⟨innerCorner, innerOuter, innerLevel,
        List.Subset.trans subset (place_subset isChild _ _ _)⟩

end Arrangement

/-! ## Parts of a program -/

namespace Program

variable (settings : LayoutSettings Rat)

/-- A node of the program is placed with all that is below it. -/
theorem exists_place_subset {program inner : Program (Label Rat)}
    (innerIn : inner ∈ program.preorder) (corner : Point Rat)
    (outer : Option NodeId) (level : Nat) :
    ∃ innerCorner innerOuter innerLevel,
      Arrangement.place innerCorner innerOuter innerLevel (inner.framed settings) ⊆
        Arrangement.place corner outer level (program.framed settings) := by
  refine Arrangement.exists_place_subset ?_ corner outer level
  rw [preorder_framed]
  exact List.mem_map_of_mem innerIn

/-- A node of the program is drawn somewhere with all that is below it. -/
theorem exists_drawn {program inner : Program (Label Rat)}
    (distinct : program.ids.Nodup) (innerIn : inner ∈ program.preorder)
    (starts : List NodeId) :
    ∃ corner outer level,
      ∀ node ∈ Arrangement.place corner outer level (inner.framed settings),
        ((Diagram.unmarked (program.framed settings)).markReachable
          starts).node? node.id =
            some ((Diagram.unmarked (program.framed settings)).marked starts
              node) := by
  obtain ⟨corner, outer, level, subset⟩ :=
    exists_place_subset settings innerIn .origin none 0
  refine ⟨corner, outer, level, fun node nodeIn => ?_⟩
  have markedIn : Diagram.marked _ starts node ∈
      ((Diagram.unmarked (program.framed settings)).markReachable starts).nodes :=
    List.mem_map_of_mem (subset nodeIn)
  refine Diagram.node?_eq_some ?_ markedIn
  rwa [Diagram.ids_markReachable, ids_nodes]

/-- Programs that differ in what is written only are drawn alike wherever they
stand. -/
theorem exists_moved {program inner otherProgram otherInner : Program (Label Rat)}
    (distinct : program.ids.Nodup) (innerIn : inner ∈ program.preorder)
    (otherDistinct : otherProgram.ids.Nodup)
    (otherIn : otherInner ∈ otherProgram.preorder)
    (same : inner.blank Label.blank = otherInner.blank Label.blank)
    (starts otherStarts : List NodeId) :
    ∃ shift, ∀ id ∈ inner.ids, ∃ node moved,
      ((Diagram.unmarked (program.framed settings)).markReachable
        starts).node? id = some node ∧
      ((Diagram.unmarked (otherProgram.framed settings)).markReachable
        otherStarts).node? id = some moved ∧
      node.IsMoved shift moved := by
  obtain ⟨corner, outer, level, shown⟩ :=
    exists_drawn settings distinct innerIn starts
  obtain ⟨otherCorner, otherOuter, otherLevel, otherShown⟩ :=
    exists_drawn settings otherDistinct otherIn otherStarts
  have sameFrames : (inner.framed settings).blank Frame.blank =
      (otherInner.framed settings).blank Frame.blank := by
    rw [← framed_blank, ← framed_blank, same]
  have atOther : corner + (otherCorner - corner) = otherCorner :=
    (Point.mk.injEq ..).mpr ⟨add_sub_cancel .., add_sub_cancel ..⟩
  refine ⟨otherCorner - corner, fun id idIn => ?_⟩
  have drawnIn : id ∈ (Arrangement.place corner outer level
      (inner.framed settings)).map DiagramNode.id := by
    rwa [Arrangement.ids_place, ids_framed]
  obtain ⟨node, nodeIn, rfl⟩ := List.mem_map.mp drawnIn
  obtain ⟨moved, movedIn, isMoved⟩ := Arrangement.exists_isMoved_of_blank sameFrames
    nodeIn (otherCorner - corner) otherOuter otherLevel
  rw [atOther] at movedIn
  have isOther := otherShown moved movedIn
  rw [isMoved.id] at isOther
  exact ⟨_, _, shown node nodeIn, isOther, isMoved.id, isMoved.tag, isMoved.bounds,
    isMoved.figure, isMoved.anchors⟩

end Program

end Flowchart
