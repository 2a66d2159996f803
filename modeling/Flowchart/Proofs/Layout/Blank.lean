import Flowchart.Proofs.Layout.Placed
import Flowchart.Proofs.Program.Blank

/-!
# Measures without texts

The measures of a program, what is found at fault with them, and where its nodes
come to lie are the same if the program is left blank first: no measure looks at
a text, a pattern or the kind of a statement.
-/

namespace Flowchart

variable {α : Type} [Scalar α]

/-! ## Measures of one node -/

namespace Frame

omit [Scalar α] in
/-- The frame without its text. -/
def blank (frame : Frame α) : Frame α :=
  { frame with text := "" }

variable {settings : LayoutSettings α} {label : Label α} {size : Size α}

theorem stackTops_blank (gap top : α) (frames : List (Frame α)) :
    stackTops gap top (frames.map blank) = stackTops gap top frames := by
  induction frames generalizing top with
  | nil => rfl
  | cons frame rest ih => exact congrArg (top :: ·) (ih _)

theorem stackEnd_blank (gap top : α) (frames : List (Frame α)) :
    stackEnd gap top (frames.map blank) = stackEnd gap top frames :=
  List.foldl_map

theorem column_blank (gap : α) (members : List (Frame α)) :
    column label.blank gap (members.map blank) =
      (column label gap members).blank := by
  simp only [column, blank, stackTops_blank, stackEnd_blank, List.map_map,
    List.zipWith_map_left]
  rfl

theorem decision_blank (consequent : Frame α) (alternative : Option (Frame α)) :
    decision label.blank size settings consequent.blank
        (alternative.map blank) =
      (decision label size settings consequent alternative).blank := by
  cases alternative <;> rfl

theorem rowLefts_blank (gap left : α) (frames : List (Frame α)) :
    rowLefts gap left (frames.map blank) = rowLefts gap left frames := by
  induction frames generalizing left with
  | nil => rfl
  | cons frame rest ih => exact congrArg (left :: ·) (ih _)

theorem rowWidth_blank (gap : α) (frames : List (Frame α)) :
    rowWidth gap (frames.map blank) = rowWidth gap frames := by
  simp only [rowWidth, List.length_map, List.map_map]
  rfl

theorem selection_blank (arms : List (Frame α)) :
    selection label.blank size settings (arms.map blank) =
      (selection label size settings arms).blank := by
  simp only [selection, blank, rowLefts_blank, rowWidth_blank, List.length_map,
    List.map_map]
  rfl

theorem container_blank (kind : ContainerKind) (body : Frame α) :
    container label.blank size settings kind body.blank =
      (container label size settings kind body).blank := by
  cases kind <;> rfl

end Frame

/-! ## Measures of a program -/

namespace Program

variable (settings : LayoutSettings α)

theorem blockFrame_blank (label : Label α) (members : List (Frame α)) :
    blockFrame settings label.blank (members.map Frame.blank) =
      (blockFrame settings label members).blank := by
  cases members with
  | nil => rfl
  | cons member rest => exact Frame.column_blank _ (member :: rest)

/-- Measuring does not look at what is left out. -/
theorem framed_blank (program : Program (Label α)) :
    (program.blank Label.blank).framed settings =
      (program.framed settings).blank Frame.blank := by
  induction program with
  | block label members ih =>
      have below : (members.map (blank Label.blank)).map (framed settings) =
          (members.map (framed settings)).map (blank Frame.blank) := by
        rw [List.map_map, List.map_map]
        exact List.map_congr_left ih
      have frames : ((members.map (framed settings)).map
            (blank Frame.blank)).map Program.label =
          ((members.map (framed settings)).map Program.label).map Frame.blank := by
        simp only [List.map_map, Function.comp_def, label_blank]
      simp only [framed, blank, blankMembers_eq, framedMembers_eq, below, frames,
        blockFrame_blank]
  | selection label arms ih =>
      have below : ((arms.map fun arm => ("", arm.2.blank Label.blank)).map
            fun arm => (arm.1, framed settings arm.2)) =
          (arms.map fun arm => (arm.1, framed settings arm.2)).map
            fun arm => ("", arm.2.blank Frame.blank) := by
        rw [List.map_map, List.map_map]
        exact List.map_congr_left fun arm armIn => congrArg _ (ih arm armIn)
      have frames : (((arms.map fun arm => (arm.1, framed settings arm.2)).map
            fun arm => ("", arm.2.blank Frame.blank)).map fun arm => arm.2.label) =
          ((arms.map fun arm => (arm.1, framed settings arm.2)).map
            fun arm => arm.2.label).map Frame.blank := by
        simp only [List.map_map, Function.comp_def, label_blank]
      simp only [framed, blank, blankArms_eq, framedArms_eq, below, frames]
      rw [← Frame.selection_blank]
      rfl
  | decision label consequent ih =>
      simp only [framed, blank, ih, label_blank]
      rw [← Frame.decision_blank]
      rfl
  | choice label consequent alternative ih₁ ih₂ =>
      simp only [framed, blank, ih₁, ih₂, label_blank]
      rw [← Frame.decision_blank]
      rfl
  | loop label kind body ih =>
      simp only [framed, blank, ih, label_blank]
      rfl
  | container label kind body ih =>
      simp only [framed, blank, ih, label_blank]
      rw [← Frame.container_blank]
      rfl
  | _ => rfl

end Program

/-! ## What is found at fault -/

namespace Arrangement

theorem fault?_blank (arrangement : Arrangement α) :
    fault? (arrangement.blank Frame.blank) = fault? arrangement := by
  rw [fault?, Program.postorder_blank, List.findSome?_map]
  refine congrArg (fun found => arrangement.postorder.findSome? found) ?_
  funext node
  rw [Function.comp_apply, Program.label_blank]
  rfl

end Arrangement

theorem Program.arrange_blank (settings : LayoutSettings α)
    (program : Program (Label α)) :
    (program.blank Label.blank).arrange settings =
      (program.arrange settings).map (Program.blank Frame.blank) := by
  rw [arrange, arrange, framed_blank, Arrangement.fault?_blank]
  cases Arrangement.fault? (program.framed settings) <;> rfl

/-! ## Nodes in the plane -/

omit [Scalar α] in
/-- The node of a diagram without its text. -/
def DiagramNode.blank (node : DiagramNode α) : DiagramNode α :=
  { node with text := "" }

omit [Scalar α] in
theorem DiagramNode.id_blank (node : DiagramNode α) :
    node.blank.id = node.id := rfl

namespace Arrangement

theorem placeMembers_blank {frame : Frame α} {origin : Point α}
    {depth index : Nat} {members : List (Arrangement α)}
    (each : ∀ member ∈ members, ∀ origin parent depth,
      place origin parent depth (member.blank Frame.blank) =
        (place origin parent depth member).map DiagramNode.blank) :
    placeMembers origin frame.blank depth index
        (members.map (Program.blank Frame.blank)) =
      (placeMembers origin frame depth index members).map
        DiagramNode.blank := by
  induction members generalizing index with
  | nil => rfl
  | cons member rest ih =>
      rw [List.map_cons, placeMembers, placeMembers, List.map_append,
        each member List.mem_cons_self,
        ih fun other otherIn => each other (List.mem_cons_of_mem _ otherIn)]
      rfl

/-- Every node comes to lie where it would with its text. -/
theorem place_blank (origin : Point α) (parent : Option NodeId) (depth : Nat)
    (arrangement : Arrangement α) :
    place origin parent depth (arrangement.blank Frame.blank) =
      (place origin parent depth arrangement).map DiagramNode.blank := by
  induction arrangement using Program.childrenInduction
    generalizing origin parent depth with
  | step arrangement ih =>
    rw [place_eq, place_eq _ _ _ arrangement, List.map_cons,
      Program.tag_blank, Program.label_blank, Program.children_blank,
      placeMembers_blank ih]
    rfl

theorem childBounds_blank (origin : Point α) (frame : Frame α)
    (children : List (Arrangement α)) :
    childBounds origin frame.blank (children.map (Program.blank Frame.blank)) =
      childBounds origin frame children := by
  simp only [childBounds, List.mapIdx_eq_zipIdx_map, List.zipIdx_map,
    List.map_map]
  refine List.map_congr_left fun entry _ => ?_
  simp only [Function.comp_apply, Prod.map_fst, Prod.map_snd,
    Program.label_blank]
  rfl

theorem membersOverlap?_blank {frame : Frame α} {origin : Point α} {index : Nat}
    {members : List (Arrangement α)}
    (each : ∀ member ∈ members, ∀ origin,
      overlap? origin (member.blank Frame.blank) = overlap? origin member) :
    membersOverlap? origin frame.blank index
        (members.map (Program.blank Frame.blank)) =
      membersOverlap? origin frame index members := by
  induction members generalizing index with
  | nil => rfl
  | cons member rest ih =>
      rw [List.map_cons, membersOverlap?, membersOverlap?,
        each member List.mem_cons_self,
        ih fun other otherIn => each other (List.mem_cons_of_mem _ otherIn)]
      rfl

theorem overlap?_blank (origin : Point α) (arrangement : Arrangement α) :
    overlap? origin (arrangement.blank Frame.blank) =
      overlap? origin arrangement := by
  induction arrangement using Program.childrenInduction generalizing origin with
  | step arrangement ih =>
    rw [overlap?_eq, overlap?_eq origin arrangement, Program.label_blank,
      Program.children_blank, childBounds_blank, membersOverlap?_blank ih]

end Arrangement

end Flowchart
