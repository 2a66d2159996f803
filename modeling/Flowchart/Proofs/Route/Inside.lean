import Flowchart.Proofs.Layout.Exact
import Flowchart.Proofs.Route.Clear

/-!
# Figures in their places

In the plane, all figures of a construct lie within its bounds, and those of its
children apart from one another.  So what is clear inside a child is clear inside
the construct.
-/

namespace Flowchart

open Scalar

theorem Frame.bounds_add (frame : Frame Rat) (offset corner : Point Rat) :
    frame.bounds (offset + corner) = (frame.bounds corner).translate offset :=
  Rect.ofTopLeft_add offset corner frame.size

theorem Frame.bounds_eq_translate (frame : Frame Rat) (origin : Point Rat) :
    frame.bounds origin = (frame.bounds .origin).translate origin := by
  rw [← frame.bounds_add]
  simp [bounds, Rect.ofTopLeft]

namespace Arrangement

/-- Moving all anchors moves the one that is looked up. -/
theorem lookup_moved (anchors : List (Anchor × Point Rat)) (shift : Point Rat)
    (anchor : Anchor) :
    (anchors.map fun (anchor, point) => (anchor, point + shift)).lookup anchor =
      (anchors.lookup anchor).map (· + shift) := by
  induction anchors with
  | nil => rfl
  | cons entry rest ih =>
      rw [List.map_cons, List.lookup_cons, List.lookup_cons]
      cases anchor == entry.1 with
      | true => rfl
      | false => exact ih

/-- A node has the anchors of its frame, in their places. -/
theorem anchor?_nodeAt {origin : Point Rat} {parent : Option NodeId}
    {depth : Nat} {tag : Tag} {frame : Frame Rat} {anchor : Anchor} {x y : Rat}
    (isAnchor : frame.anchors.lookup anchor = some ⟨x, y⟩) :
    (nodeAt origin parent depth tag frame).anchor? anchor =
      some ⟨origin.x + x, origin.y + y⟩ := by
  have moved : (⟨x, y⟩ : Point Rat) + origin = ⟨origin.x + x, origin.y + y⟩ := by
    rw [add_comm origin.x, add_comm origin.y]
    rfl
  rw [DiagramNode.anchor?, nodeAt, lookup_moved, isAnchor, Option.map_some, moved]

section Placed

variable {arrangement child other : Arrangement Rat} {index later : Nat}

theorem mem_place {origin : Point Rat} {parent : Option NodeId} {depth : Nat}
    {node : DiagramNode Rat} :
    node ∈ place origin parent depth arrangement ↔
      node = nodeAt origin parent depth arrangement.tag arrangement.label ∨
        ∃ index child, arrangement.children[index]? = some child ∧
          node ∈ place (childOrigin origin arrangement.label index)
            (some arrangement.label.id) (depth + 1) child := by
  rw [place_eq, List.mem_cons, mem_placeMembers]
  simp only [Nat.zero_add]

theorem self_mem_place (origin : Point Rat) (parent : Option NodeId)
    (depth : Nat) (arrangement : Arrangement Rat) :
    nodeAt origin parent depth arrangement.tag arrangement.label ∈
      place origin parent depth arrangement :=
  mem_place.mpr (.inl rfl)

theorem place_subset (isChild : arrangement.children[index]? = some child)
    (origin : Point Rat) (parent : Option NodeId) (depth : Nat) :
    place (childOrigin origin arrangement.label index)
        (some arrangement.label.id) (depth + 1) child ⊆
      place origin parent depth arrangement :=
  fun _ nodeIn => mem_place.mpr (.inr ⟨index, child, isChild, nodeIn⟩)

theorem frame_getElem? (isChild : arrangement.children[index]? = some child) :
    (arrangement.children.map Program.label)[index]? = some child.label := by
  rw [List.getElem?_map, isChild]
  rfl

variable (fits : arrangement.Fits)

include fits

theorem Fits.child_of_getElem?
    (isChild : arrangement.children[index]? = some child) : child.Fits :=
  fits.child (List.mem_of_getElem? isChild)

theorem child_inside (isChild : arrangement.children[index]? = some child)
    (origin : Point Rat) :
    (child.label.bounds (childOrigin origin arrangement.label index)).Inside
      (arrangement.label.bounds origin) := by
  have within := fits.root.inside index child.label (frame_getElem? isChild)
  rw [childOrigin_eq, Frame.bounds_add,
    arrangement.label.bounds_eq_translate origin]
  exact within.translate origin

theorem children_apart (isChild : arrangement.children[index]? = some child)
    (isOther : arrangement.children[later]? = some other)
    (different : index ≠ later) (origin : Point Rat) :
    (child.label.bounds (childOrigin origin arrangement.label index)).Apart
      (other.label.bounds (childOrigin origin arrangement.label later)) := by
  rw [childOrigin_eq, childOrigin_eq, Frame.bounds_add, Frame.bounds_add]
  rcases Nat.lt_or_gt_of_ne different with isBefore | isAfter
  · exact (fits.root.apart index later _ _ isBefore (frame_getElem? isChild)
      (frame_getElem? isOther)).translate origin
  · exact (fits.root.apart later index _ _ isAfter (frame_getElem? isOther)
      (frame_getElem? isChild)).symm.translate origin

/-- All figures in a construct enclose an area and lie within its bounds. -/
theorem figures_place (origin : Point Rat) (parent : Option NodeId)
    (depth : Nat) :
    Figures (place origin parent depth arrangement) fun figure =>
      figure.minX < figure.maxX ∧ figure.minY < figure.maxY ∧
        figure.Inside (arrangement.label.bounds origin) := by
  induction arrangement using Program.childrenInduction
    generalizing origin parent depth with
  | step arrangement ih =>
    intro node nodeIn figure isFigure
    rcases mem_place.mp nodeIn with rfl | ⟨index, child, isChild, inChild⟩
    · obtain ⟨original, isOriginal, rfl⟩ := Option.map_eq_some_iff.mp isFigure
      obtain ⟨wide, high, within, -⟩ := fits.root.figure original isOriginal
      rw [Frame.bounds_eq_translate]
      refine ⟨?_, ?_, within.translate origin⟩ <;>
        simp only [Rect.translate] <;> linarith
    · obtain ⟨wide, high, within⟩ :=
        ih child (List.mem_of_getElem? isChild)
          (fits.child_of_getElem? isChild) _ _ _ node inChild figure isFigure
      exact ⟨wide, high, within.trans (child_inside fits isChild origin)⟩

theorem figures_inside (origin : Point Rat) (parent : Option NodeId)
    (depth : Nat) :
    Figures (place origin parent depth arrangement)
      (Rect.Inside · (arrangement.label.bounds origin)) :=
  (figures_place fits origin parent depth).imp fun _ => (·.2.2)

/-- Whatever lies in a construct but not in one of its children is apart from the
child. -/
theorem around_child (isChild : arrangement.children[index]? = some child)
    (origin : Point Rat) (parent : Option NodeId) (depth : Nat) :
    ∀ node ∈ place origin parent depth arrangement,
      node ∈ place (childOrigin origin arrangement.label index)
          (some arrangement.label.id) (depth + 1) child ∨
        ∀ figure, node.figure = some figure → figure.Apart
          (child.label.bounds (childOrigin origin arrangement.label index)) := by
  intro node nodeIn
  rcases mem_place.mp nodeIn with rfl | ⟨later, other, isOther, inOther⟩
  · refine .inr fun figure isFigure => ?_
    obtain ⟨original, isOriginal, rfl⟩ := Option.map_eq_some_iff.mp isFigure
    obtain ⟨-, -, -, apart⟩ := fits.root.figure original isOriginal
    rw [childOrigin_eq, Frame.bounds_add]
    exact (apart index child.label (frame_getElem? isChild)).translate origin
  · by_cases same : index = later
    · subst same
      obtain rfl := Option.some.inj (isChild.symm.trans isOther)
      exact .inl inOther
    · refine .inr fun figure isFigure => ?_
      have within := figures_inside (fits.child_of_getElem? isOther)
        _ _ _ node inOther figure isFigure
      exact (children_apart fits isChild isOther same origin).symm.mono within

theorem clear_child (isChild : arrangement.children[index]? = some child)
    {settings : LayoutSettings Rat} {edge : Edge} {origin : Point Rat}
    {parent : Option NodeId} {depth : Nat}
    (isClear : IsClear settings
      (place (childOrigin origin arrangement.label index)
        (some arrangement.label.id) (depth + 1) child)
      (child.label.bounds (childOrigin origin arrangement.label index)) edge) :
    IsClear settings (place origin parent depth arrangement)
      (arrangement.label.bounds origin) edge :=
  isClear.mono (place_subset isChild origin parent depth)
    (child_inside fits isChild origin)
    (around_child fits isChild origin parent depth)

end Placed

end Arrangement

end Flowchart
