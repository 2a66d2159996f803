import Flowchart.Proofs.Layout.Exact

/-!
# Distances within a node

In exact arithmetic the children of a node keep the distances of the settings
from its figure and from each other.
-/

namespace Flowchart

open Scalar

/-! ## Rectangles at a distance -/

namespace Rect

variable {distance shorter : Rat} {first second inner outer : Rect Rat}

/-- One rectangle lies at least a distance beyond the other, on one axis. -/
def Separated (distance : Rat) (first second : Rect Rat) : Prop :=
  first.maxX + distance ≤ second.minX ∨ second.maxX + distance ≤ first.minX ∨
    first.maxY + distance ≤ second.minY ∨ second.maxY + distance ≤ first.minY

namespace Separated

theorem symm (separated : Separated distance first second) :
    Separated distance second first := by
  unfold Separated at separated ⊢
  tauto

theorem mono (separated : Separated distance first second)
    (isShorter : shorter ≤ distance) : Separated shorter first second := by
  rcases separated with before | after | above | below
  · exact .inl (by linarith)
  · exact .inr (.inl (by linarith))
  · exact .inr (.inr (.inl (by linarith)))
  · exact .inr (.inr (.inr (by linarith)))

theorem inside (separated : Separated distance outer second)
    (within : inner.Inside outer) : Separated distance inner second := by
  obtain ⟨left, right, top, bottom⟩ := within
  rcases separated with before | after | above | below
  · exact .inl (by linarith)
  · exact .inr (.inl (by linarith))
  · exact .inr (.inr (.inl (by linarith)))
  · exact .inr (.inr (.inr (by linarith)))

theorem translate (separated : Separated distance first second)
    (offset : Point Rat) :
    Separated distance (first.translate offset) (second.translate offset) := by
  unfold Separated at separated ⊢
  simp only [Rect.translate]
  rcases separated with before | after | above | below
  · exact .inl (by linarith)
  · exact .inr (.inl (by linarith))
  · exact .inr (.inr (.inl (by linarith)))
  · exact .inr (.inr (.inr (by linarith)))

/-- Rectangles at a distance have no point in common. -/
theorem disjoint (separated : Separated distance first second)
    (positive : 0 < distance) {point : Point Rat} (holds : first.Holds point) :
    ¬ second.Holds point := by
  obtain ⟨left, right, top, bottom⟩ := holds
  rintro ⟨otherLeft, otherRight, otherTop, otherBottom⟩
  rcases separated with before | after | above | below <;> linarith

end Separated

end Rect

/-! ## Children of one node -/

/-- The least distance between any two nodes side by side. -/
def LayoutSettings.nearest (settings : LayoutSettings Rat) : Rat :=
  min settings.statementSpacing settings.branchGap

namespace Frame

variable {settings : LayoutSettings Rat} {frame : Frame Rat}
  {children : List (Frame Rat)}

/-- The children of a node keep their distances from its figure and from each
other. -/
structure Spaced (settings : LayoutSettings Rat) (frame : Frame Rat)
    (children : List (Frame Rat)) : Prop where
  below : ∀ figure, frame.figure = some figure →
    ∀ (index : Nat) (child : Frame Rat), children[index]? = some child →
      figure.maxY + settings.statementSpacing ≤ (frame.offset index).y
  apart : ∀ (index later : Nat) (first second : Frame Rat), index < later →
    children[index]? = some first → children[later]? = some second →
    (first.bounds (frame.offset index)).Separated settings.nearest
      (second.bounds (frame.offset later))

theorem Headed.spaced {figure : Rect Rat} {top : Rat}
    (headed : frame.Headed figure children top)
    (below : figure.maxY + settings.statementSpacing ≤ top)
    (row : ∀ (index later : Nat) (first second : Frame Rat), index < later →
      children[index]? = some first → children[later]? = some second →
      (frame.offset index).x + first.size.width + settings.branchGap ≤
        (frame.offset later).x) : frame.Spaced settings children where
  below := by
    intro other isOther index child isChild
    obtain rfl := Option.some.inj (headed.isFigure.symm.trans isOther)
    rwa [(headed.child index child isChild).1]
  apart := by
    intro index later first second isBefore isFirst isSecond
    have beside := row index later first second isBefore isFirst isSecond
    have separated : (first.bounds (frame.offset index)).Separated
        settings.branchGap (second.bounds (frame.offset later)) := .inl beside
    exact separated.mono (min_le_right _ _)

/-- A single child needs only to keep its distance from the figure. -/
theorem Headed.spaced_single {figure : Rect Rat} {top : Rat} {child : Frame Rat}
    (headed : frame.Headed figure [child] top)
    (below : figure.maxY + settings.statementSpacing ≤ top) :
    frame.Spaced settings [child] := by
  refine headed.spaced below ?_
  rintro index (_ | later) first second isBefore - isSecond
  · omega
  · simp at isSecond

theorem figureOn_maxY (spine top : Rat) (size : Size Rat) :
    (figureOn spine top size).maxY = top + size.height := rfl

variable (settings) in
/-- The alternative of a decision stands right of the figure and of the
consequent. -/
theorem decision_row (label : Label Rat) (size : Size Rat)
    (consequent alternative : Frame Rat) :
    ((decision label size settings consequent (some alternative)).offset 0).x +
          consequent.size.width + settings.branchGap ≤
        ((decision label size settings consequent (some alternative)).offset 1).x ∧
      (figureOn (decision label size settings consequent (some alternative)).spine
          0 size).maxX + settings.branchGap ≤
        ((decision label size settings consequent
          (some alternative)).offset 1).x := by
  obtain ⟨rightLe, figureLe⟩ := le_decisionRight size consequent
  rw [decision_offset, choice_offset, figureOn_exact, decision_spine]
  exact ⟨by linarith, by linarith⟩

variable (settings) in
/-- Each arm of a selection starts a gap after the one before. -/
theorem selection_next (label : Label Rat) (size : Size Rat)
    {arms : List (Frame Rat)} {index : Nat} {first second : Frame Rat}
    (isFirst : arms[index]? = some first)
    (isSecond : arms[index + 1]? = some second) :
    ((selection label size settings arms).offset index).x + first.size.width +
        settings.branchGap =
      ((selection label size settings arms).offset (index + 1)).x := by
  obtain ⟨left, isLeft, offset_eq⟩ := selection_offset settings size label isFirst
  obtain ⟨next, isNext, nextOffset_eq⟩ :=
    selection_offset settings size label isSecond
  rw [offset_eq, nextOffset_eq]
  exact tiles_next isLeft (by rw [List.getElem?_map, isFirst]; rfl) isNext

/-- Each member of a block starts a gap below the one before. -/
theorem column_next (label : Label Rat) (gap : Rat) {members : List (Frame Rat)}
    {index : Nat} {first second : Frame Rat}
    (isFirst : members[index]? = some first)
    (isSecond : members[index + 1]? = some second) :
    ((column label gap members).offset index).y + first.size.height + gap =
      ((column label gap members).offset (index + 1)).y := by
  obtain ⟨top, isTop, offset_eq⟩ := column_offset gap label isFirst
  obtain ⟨next, isNext, nextOffset_eq⟩ := column_offset gap label isSecond
  rw [offset_eq, nextOffset_eq]
  exact tiles_next isTop (by rw [List.getElem?_map, isFirst]; rfl) isNext

theorem spaced_column (label : Label Rat) {members : List (Frame Rat)}
    (accepted : settings.Accepted) (sound : ∀ member ∈ members, member.Sound) :
    (column label settings.statementSpacing members).Spaced settings members where
  below := by
    intro figure isFigure
    cases isFigure
  apart := by
    intro index later first second isBefore isFirst isSecond
    have heights : ∀ height ∈ members.map (fun member => member.size.height),
        0 ≤ height := by
      intro height heightIn
      obtain ⟨member, memberIn, rfl⟩ := List.mem_map.mp heightIn
      exact (sound member memberIn).height_nonneg
    obtain ⟨top, isTop, offset_eq⟩ :=
      column_offset settings.statementSpacing label isFirst
    obtain ⟨next, isNext, nextOffset_eq⟩ :=
      column_offset settings.statementSpacing label isSecond
    have ordered := tiles_ordered accepted.spacing_pos.le heights isBefore isTop
      (by rw [List.getElem?_map, isFirst]; rfl) isNext
    have separated : (first.bounds
        ((column label settings.statementSpacing members).offset index)).Separated
          settings.statementSpacing (second.bounds
            ((column label settings.statementSpacing members).offset later)) := by
      rw [offset_eq, nextOffset_eq]
      exact .inr (.inr (.inl ordered))
    exact separated.mono (min_le_left _ _)

theorem spaced_selection (label : Label Rat) {size : Size Rat}
    {arms : List (Frame Rat)} (accepted : settings.Accepted)
    (wide : 0 < size.width) (high : 0 < size.height)
    (sound : ∀ arm ∈ arms, arm.Sound) :
    (selection label size settings arms).Spaced settings arms := by
  apply (headed_selection label accepted wide high sound).spaced
  · rw [figureOn_maxY, zero_add]
  · intro index later first second isBefore isFirst isSecond
    have widths : ∀ width ∈ arms.map (fun arm => arm.size.width), 0 ≤ width := by
      intro width widthIn
      obtain ⟨arm, armIn, rfl⟩ := List.mem_map.mp widthIn
      exact (sound arm armIn).spine_nonneg.trans (sound arm armIn).spine_le
    obtain ⟨left, isLeft, offset_eq⟩ :=
      selection_offset settings size label isFirst
    obtain ⟨next, isNext, nextOffset_eq⟩ :=
      selection_offset settings size label isSecond
    rw [offset_eq, nextOffset_eq]
    exact tiles_ordered accepted.branchGap_pos.le widths isBefore isLeft
      (by rw [List.getElem?_map, isFirst]; rfl) isNext

theorem spaced_choice (label : Label Rat) {size : Size Rat}
    {consequent alternative : Frame Rat} (accepted : settings.Accepted)
    (wide : 0 < size.width) (high : 0 < size.height)
    (sound : consequent.Sound) (soundToo : alternative.Sound) :
    (decision label size settings consequent (some alternative)).Spaced settings
      [consequent, alternative] := by
  have soundElse : ∀ frame ∈ some alternative, frame.Sound := by
    simpa using soundToo
  apply (headed_decision label accepted wide high sound soundElse).spaced
  · rw [figureOn_maxY, zero_add]
  · intro index later first second isBefore isFirst isSecond
    have isPair : index = 0 ∧ later = 1 := by
      have inside := (List.getElem?_eq_some_iff.mp isSecond).1
      simp at inside
      omega
    obtain ⟨rfl, rfl⟩ := isPair
    obtain rfl : consequent = first := by simpa using isFirst
    exact (decision_row settings label size consequent alternative).1

theorem spaced_decision (label : Label Rat) {size : Size Rat}
    {consequent : Frame Rat} (accepted : settings.Accepted)
    (wide : 0 < size.width) (high : 0 < size.height)
    (sound : consequent.Sound) :
    (decision label size settings consequent none).Spaced settings
      [consequent] := by
  have noneElse : ∀ frame ∈ (none : Option (Frame Rat)), frame.Sound := by
    simp
  apply (headed_decision label accepted wide high sound noneElse).spaced_single
  rw [figureOn_maxY, zero_add]

theorem spaced_loop (label : Label Rat) {size : Size Rat} {body : Frame Rat}
    (accepted : settings.Accepted) (wide : 0 < size.width)
    (high : 0 < size.height) (sound : body.Sound) :
    (loop label size settings body).Spaced settings [body] := by
  apply (headed_loop label accepted wide high sound).spaced_single
  rw [figureOn_maxY, zero_add]

theorem spaced_container (label : Label Rat) {size : Size Rat}
    {kind : ContainerKind} {body : Frame Rat} (accepted : settings.Accepted)
    (wide : 0 < size.width) (high : 0 < size.height) (sound : body.Sound) :
    (container label size settings kind body).Spaced settings [body] := by
  apply (headed_container label accepted wide high sound).spaced_single
  rw [figureOn_maxY]

end Frame

namespace Program

variable {settings : LayoutSettings Rat}

theorem spaced_framed (accepted : settings.Accepted)
    (program : Program (Label Rat)) :
    (program.framed settings).label.Spaced settings
      ((program.framed settings).children.map Program.label) := by
  have sound : ∀ program : Program (Label Rat),
      (program.framed settings).label.Sound :=
    fun program => (fits_framed_root accepted program).toSound
  have leaf : ∀ frame : Frame Rat, frame.Spaced settings [] := fun frame =>
    ⟨fun _ _ _ _ isChild => by simp at isChild,
      fun _ _ _ _ _ isFirst => by simp at isFirst⟩
  have figure_pos := accepted.figureSize_pos
  cases program with
  | statement label kind => exact leaf _
  | result label => exact leaf _
  | typeDefinition label => exact leaf _
  | block label members =>
      cases members with
      | nil => exact leaf _
      | cons first rest =>
          apply Frame.spaced_column label accepted
          intro frame frameIn
          rw [framedMembers_eq, List.map_map] at frameIn
          obtain ⟨member, -, rfl⟩ := List.mem_map.mp frameIn
          exact sound member
  | decision label consequent alternative =>
      cases alternative with
      | none =>
          exact Frame.spaced_decision label accepted (figure_pos _ _).1
            (figure_pos _ _).2 (sound consequent)
      | some alternative =>
          exact Frame.spaced_choice label accepted (figure_pos _ _).1
            (figure_pos _ _).2 (sound consequent) (sound alternative)
  | selection label arms =>
      have children_eq : (framed settings (.selection label arms)).children.map
          Program.label =
            (framedArms settings arms).map fun arm => arm.2.label := by
        simp [framed, children]
      rw [children_eq]
      apply Frame.spaced_selection label accepted (figure_pos _ _).1
        (figure_pos _ _).2
      intro frame frameIn
      rw [framedArms_eq, List.map_map] at frameIn
      obtain ⟨arm, -, rfl⟩ := List.mem_map.mp frameIn
      exact sound arm.2
  | loop label kind body =>
      exact Frame.spaced_loop label accepted (figure_pos _ _).1
        (figure_pos _ _).2 (sound body)
  | container label kind body =>
      exact Frame.spaced_container label accepted (figure_pos _ _).1
        (figure_pos _ _).2 (sound body)

end Program

end Flowchart
