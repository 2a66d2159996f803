import Flowchart.Proofs.Layout.Exact

/-!
# How large a program gets

In exact arithmetic a node exceeds its children taken together by no more than five
times the greatest number in the settings and the hints.  It is a function that comes
closest: it adds its figure, two paddings and two gaps to the height of its body.  So
no measure of a program is greater than five times this number for each of its nodes.
-/

namespace Flowchart

open Scalar

/-- No number of the settings is greater than a given one. -/
structure LayoutSettings.IsWithin (span : Rat) (settings : LayoutSettings Rat) :
    Prop where
  spacing : settings.statementSpacing ≤ span
  branchGap : settings.branchGap ≤ span
  clearance : settings.loopClearance ≤ span
  top : settings.padding.top ≤ span
  right : settings.padding.right ≤ span
  bottom : settings.padding.bottom ≤ span
  left : settings.padding.left ≤ span
  minimum : ∀ tag, (settings.minimumSizes.forTag tag).width ≤ span ∧
    (settings.minimumSizes.forTag tag).height ≤ span

/-! ## One node -/

namespace Frame

/-- A node exceeds its children by no more than a share.  A gap is counted with
each of them. -/
structure Grows (settings : LayoutSettings Rat) (share : Rat) (frame : Frame Rat)
    (children : List (Frame Rat)) : Prop where
  width : frame.size.width + settings.branchGap ≤
    share + (children.map fun child => child.size.width + settings.branchGap).sum
  height : frame.size.height + settings.statementSpacing ≤ share +
    (children.map fun child => child.size.height + settings.statementSpacing).sum

theorem sum_with_gap (extent : Frame Rat → Rat) (gap : Rat)
    (frames : List (Frame Rat)) :
    (frames.map fun frame => extent frame + gap).sum =
      (frames.map extent).sum + frames.length * gap := by
  rw [List.sum_map_add, List.map_const', List.sum_replicate, nsmul_eq_mul]

/-- The largest extent is at most all of them together. -/
theorem largest_le_sum {extent : Frame Rat → Rat} {frames : List (Frame Rat)}
    (nonneg : ∀ frame ∈ frames, 0 ≤ extent frame) :
    largest 0 (frames.map extent) ≤ (frames.map extent).sum := by
  have extents : ∀ value ∈ frames.map extent, 0 ≤ value := by
    intro value valueIn
    obtain ⟨frame, frameIn, rfl⟩ := List.mem_map.mp valueIn
    exact nonneg frame frameIn
  exact (Scalar.largest_le_sum (le_refl 0) extents).trans (zero_add _).le

/-- A row is at most as wide as its arms with a gap for each. -/
theorem rowWidth_le {gap : Rat} (gapped : 0 ≤ gap) (frames : List (Frame Rat)) :
    rowWidth gap frames ≤
      (frames.map fun frame => frame.size.width).sum + frames.length * gap := by
  have gaps : max ((frames.length : Rat) - (1 : Nat)) 0 ≤ frames.length :=
    max_le (sub_le_self _ (Nat.cast_nonneg 1)) (Nat.cast_nonneg _)
  have scaled := mul_le_mul_of_nonneg_left gaps gapped
  have width_eq : rowWidth gap frames = (frames.map fun frame => frame.size.width).sum +
      gap * max ((frames.length : Rat) - (1 : Nat)) 0 := by
    rw [rowWidth, sum_exact, larger_exact]
    rfl
  linarith

variable {settings : LayoutSettings Rat} {span : Rat} {size : Size Rat}

theorem Sound.right_nonneg {frame : Frame Rat} (sound : frame.Sound) :
    0 ≤ frame.rightOfSpine :=
  sub_nonneg.mpr sound.spine_le

/-- Room for a figure on either side of the spine. -/
theorem Sound.widened_le {frame : Frame Rat} (sound : frame.Sound)
    (wide : 0 < size.width) :
    max frame.spine (size.width / 2) + max frame.rightOfSpine (size.width / 2) ≤
      frame.size.width + size.width := by
  have half : 0 ≤ size.width / 2 := by linarith
  have left := max_le_add_of_nonneg sound.spine_nonneg half
  have right := max_le_add_of_nonneg sound.right_nonneg half
  have right_eq : frame.rightOfSpine = frame.size.width - frame.spine := rfl
  linarith

variable (label : Label Rat) (accepted : settings.Accepted)
  (within : settings.IsWithin span)

include accepted within

theorem grows_column {members : List (Frame Rat)} (filled : members ≠ [])
    (sound : ∀ member ∈ members, member.Sound) :
    (column label settings.statementSpacing members).Grows settings (5 * span)
      members := by
  have spacingPos := accepted.spacing_pos
  have branchGapPos := accepted.branchGap_pos
  have spacing := within.spacing
  have branchGap := within.branchGap
  constructor
  · have spines := largest_le_sum fun member memberIn =>
      (sound member memberIn).spine_nonneg
    have rights := largest_le_sum fun member memberIn =>
      (sound member memberIn).right_nonneg
    have widths : (members.map Frame.spine).sum + (members.map rightOfSpine).sum =
        (members.map fun member => member.size.width).sum := by
      rw [← List.sum_map_add]
      congr 1
      exact List.map_congr_left fun member _ => add_sub_cancel member.spine _
    have gaps : 0 ≤ (members.length : Rat) * settings.branchGap := by positivity
    have width_eq : (column label settings.statementSpacing members).size.width =
      largest 0 (members.map Frame.spine) +
        largest 0 (members.map rightOfSpine) := rfl
    rw [width_eq, sum_with_gap fun member => member.size.width]
    linarith
  · rw [column_height label spacingPos.le filled sound, tilesEnd_eq,
      sum_with_gap fun member => member.size.height, List.length_map]
    linarith

variable (wide : 0 < size.width) (width : size.width ≤ span)
  (height : size.height ≤ span)

include width height

theorem grows_leaf (goesOn : Bool) :
    (leaf label size goesOn).Grows settings (5 * span) [] := by
  have spacingPos := accepted.spacing_pos
  have spacing := within.spacing
  have branchGap := within.branchGap
  constructor
  · simp only [leaf, List.map_nil, List.sum_nil]
    linarith
  · simp only [leaf, List.map_nil, List.sum_nil]
    linarith

include wide

theorem grows_decision {consequent : Frame Rat} {alternative : Option (Frame Rat)}
    (sound : consequent.Sound) (soundToo : ∀ frame ∈ alternative, frame.Sound) :
    (decision label size settings consequent alternative).Grows settings (5 * span)
      (consequent :: alternative.toList) := by
  have spacingPos := accepted.spacing_pos
  have branchGapPos := accepted.branchGap_pos
  have spacing := within.spacing
  have branchGap := within.branchGap
  have right : decisionRight size consequent ≤ consequent.size.width + size.width :=
    sound.widened_le wide
  have tall := sound.height_nonneg
  cases alternative with
  | none =>
      constructor
      · rw [decision_width]
        simp only [Option.map_none, Option.getD_none, Option.toList_none,
          List.map_cons, List.map_nil, List.sum_cons, List.sum_nil]
        linarith
      · rw [decision_height]
        simp only [Option.map_none, Option.getD_none, Option.toList_none,
          List.map_cons, List.map_nil, List.sum_cons, List.sum_nil]
        linarith
  | some frame =>
      have tallest := max_le_add_of_nonneg tall (soundToo frame rfl).height_nonneg
      constructor
      · rw [decision_width]
        simp only [Option.map_some, Option.getD_some, Option.toList_some,
          List.map_cons, List.map_nil, List.sum_cons, List.sum_nil]
        linarith
      · rw [decision_height]
        simp only [Option.map_some, Option.getD_some, Option.toList_some,
          List.map_cons, List.map_nil, List.sum_cons, List.sum_nil]
        linarith

theorem grows_selection {arms : List (Frame Rat)} (sound : ∀ arm ∈ arms, arm.Sound) :
    (selection label size settings arms).Grows settings (5 * span) arms := by
  have spacingPos := accepted.spacing_pos
  have branchGapPos := accepted.branchGap_pos
  have spacing := within.spacing
  have branchGap := within.branchGap
  constructor
  · have widths : 0 ≤ (arms.map fun arm => arm.size.width).sum := by
      refine List.sum_nonneg fun value valueIn => ?_
      obtain ⟨arm, armIn, rfl⟩ := List.mem_map.mp valueIn
      exact (sound arm armIn).spine_nonneg.trans (sound arm armIn).spine_le
    have gaps : 0 ≤ (arms.length : Rat) * settings.branchGap := by positivity
    have row := rowWidth_le branchGapPos.le arms
    have widest : max (rowWidth settings.branchGap arms) size.width ≤
        (arms.map fun arm => arm.size.width).sum +
          arms.length * settings.branchGap + size.width :=
      max_le (by linarith) (by linarith)
    rw [selection_width, sum_with_gap fun arm => arm.size.width]
    linarith
  · have tallest := largest_le_sum fun arm armIn => (sound arm armIn).height_nonneg
    have gaps : 0 ≤ (arms.length : Rat) * settings.statementSpacing := by positivity
    rw [selection_height, sum_with_gap fun arm => arm.size.height]
    linarith

variable {body : Frame Rat} (sound : body.Sound)

include sound

theorem grows_loop :
    (loop label size settings body).Grows settings (5 * span) [body] := by
  have spacingPos := accepted.spacing_pos
  have spacing := within.spacing
  have branchGap := within.branchGap
  have clearance := within.clearance
  have widened := sound.widened_le wide
  constructor
  · rw [loop_width, List.map_singleton, List.sum_singleton]
    linarith
  · rw [loop_height, List.map_singleton, List.sum_singleton]
    linarith

theorem grows_container (kind : ContainerKind) :
    (container label size settings kind body).Grows settings (5 * span) [body] := by
  have spacingPos := accepted.spacing_pos
  have spacing := within.spacing
  have branchGap := within.branchGap
  have widened := sound.widened_le wide
  have top := within.top
  have right := within.right
  have bottom := within.bottom
  have left := within.left
  constructor
  · rw [container_width, List.map_singleton, List.sum_singleton]
    linarith
  · rw [List.map_singleton, List.sum_singleton]
    cases kind <;> simp only [container] <;> linarith

end Frame

/-! ## All nodes -/

/-- A label asks for no more than a given size. -/
def Label.IsWithin (span : Rat) (label : Label Rat) : Prop :=
  ∀ hint, label.hint = some hint → hint.width ≤ span ∧ hint.height ≤ span

variable {settings : LayoutSettings Rat} {span : Rat}

theorem LayoutSettings.IsWithin.figureSize_le (within : settings.IsWithin span)
    {label : Label Rat} (modest : label.IsWithin span) (tag : Tag) :
    (Arrangement.figureSize settings tag label).width ≤ span ∧
      (Arrangement.figureSize settings tag label).height ≤ span := by
  obtain ⟨width, height⟩ := within.minimum tag
  unfold Arrangement.figureSize MinimumSizes.figure
  cases hinted : label.hint with
  | none => exact ⟨width, height⟩
  | some hint =>
      obtain ⟨hintWidth, hintHeight⟩ := modest hint hinted
      simp only [Size.max, larger_exact]
      exact ⟨max_le hintWidth width, max_le hintHeight height⟩

namespace Arrangement

/-- What holds of every member holds of all of them together. -/
theorem sum_le_mul_length {share : Rat} (extent : Frame Rat → Rat)
    {members : List (Arrangement Rat)}
    (each : ∀ member ∈ members, extent member.label ≤ share * member.preorder.length) :
    ((members.map Program.label).map extent).sum ≤
      share * (members.flatMap Program.preorder).length := by
  induction members with
  | nil => simp
  | cons member rest ih =>
      have first := each member List.mem_cons_self
      have later := ih fun other otherIn => each other (List.mem_cons_of_mem _ otherIn)
      rw [List.map_cons, List.map_cons, List.sum_cons, List.flatMap_cons,
        List.length_append]
      push_cast
      linarith

/-- Where every node exceeds its children by no more than a share, an arrangement
has no more than a share for each of its nodes. -/
theorem extent_le {share : Rat} {arrangement : Arrangement Rat}
    (grows : ∀ node ∈ arrangement.preorder,
      node.label.Grows settings share (node.children.map Program.label)) :
    arrangement.label.size.width + settings.branchGap ≤
        share * arrangement.preorder.length ∧
      arrangement.label.size.height + settings.statementSpacing ≤
        share * arrangement.preorder.length := by
  induction arrangement using Program.childrenInduction with
  | step arrangement ih =>
    have children := fun child childIn => ih child childIn fun node nodeIn =>
      grows node (Program.mem_preorder_of_child childIn nodeIn)
    have root := grows arrangement arrangement.self_mem_preorder
    have widths := sum_le_mul_length (fun frame => frame.size.width + settings.branchGap)
      fun child childIn => (children child childIn).1
    have heights := sum_le_mul_length
      (fun frame => frame.size.height + settings.statementSpacing)
      fun child childIn => (children child childIn).2
    have width := root.width
    have height := root.height
    rw [Program.preorder_eq, List.length_cons]
    push_cast
    exact ⟨by linarith, by linarith⟩

end Arrangement

/-- No measure of a node is greater than a given number. -/
structure Frame.IsWithin (limit : Rat) (frame : Frame Rat) : Prop where
  width : frame.size.width ≤ limit
  height : frame.size.height ≤ limit
  spine : frame.spine ≤ limit

theorem Frame.IsWithin.mono {less limit : Rat} {frame : Frame Rat}
    (within : frame.IsWithin less) (le : less ≤ limit) : frame.IsWithin limit :=
  ⟨within.width.trans le, within.height.trans le, within.spine.trans le⟩

namespace Program

theorem grows_framed (accepted : settings.Accepted) (within : settings.IsWithin span)
    {program : Program (Label Rat)} (modest : program.label.IsWithin span) :
    (program.framed settings).label.Grows settings (5 * span)
      ((program.framed settings).children.map Program.label) := by
  have sound : ∀ program : Program (Label Rat),
      (program.framed settings).label.Sound :=
    fun program => (fits_framed_root accepted program).toSound
  have figure_pos := accepted.figureSize_pos
  have figure_le := within.figureSize_le modest
  cases program with
  | statement label kind | result label | typeDefinition label =>
      exact Frame.grows_leaf label accepted within (figure_le _).1 (figure_le _).2 _
  | block label members =>
      cases members with
      | nil =>
          exact Frame.grows_leaf label accepted within (figure_le _).1 (figure_le _).2 _
      | cons first rest =>
          refine Frame.grows_column label accepted within (List.cons_ne_nil _ _)
            fun frame frameIn => ?_
          have isMember : frame ∈ (framedMembers settings (first :: rest)).map
              Program.label := frameIn
          rw [framedMembers_eq, List.map_map] at isMember
          obtain ⟨member, -, rfl⟩ := List.mem_map.mp isMember
          exact sound member
  | decision label consequent alternative =>
      cases alternative with
      | none =>
          have noneElse : ∀ frame ∈ (none : Option (Frame Rat)), frame.Sound := by
            simp
          exact Frame.grows_decision label accepted within (figure_pos _ _).1
            (figure_le _).1 (figure_le _).2 (sound consequent) noneElse
      | some alternative =>
          have soundElse : ∀ frame ∈ some (alternative.framed settings).label,
              frame.Sound := by
            rintro _ ⟨⟩
            exact sound alternative
          exact Frame.grows_decision label accepted within (figure_pos _ _).1
            (figure_le _).1 (figure_le _).2 (sound consequent) soundElse
  | selection label arms =>
      have children_eq : (framed settings (.selection label arms)).children.map
          Program.label =
            (framedArms settings arms).map fun arm => arm.2.label := by
        simp [framed, children]
      rw [children_eq]
      refine Frame.grows_selection label accepted within (figure_pos _ _).1
        (figure_le _).1 (figure_le _).2 fun frame frameIn => ?_
      rw [framedArms_eq, List.map_map] at frameIn
      obtain ⟨arm, -, rfl⟩ := List.mem_map.mp frameIn
      exact sound arm.2
  | loop label kind body =>
      exact Frame.grows_loop label accepted within (figure_pos _ _).1 (figure_le _).1
        (figure_le _).2 (sound body)
  | container label kind body =>
      exact Frame.grows_container label accepted within (figure_pos _ _).1
        (figure_le _).1 (figure_le _).2 (sound body) kind

/-- No measure of a program is greater than five times the greatest number there
is, for each of its nodes. -/
theorem framed_isWithin (accepted : settings.Accepted) (within : settings.IsWithin span)
    {program : Program (Label Rat)}
    (modest : ∀ label ∈ program.labels, label.IsWithin span) :
    ∀ node ∈ (program.framed settings).preorder,
      node.label.IsWithin (5 * span * program.preorder.length) := by
  intro node nodeIn
  rw [preorder_framed] at nodeIn
  obtain ⟨inner, innerIn, rfl⟩ := List.mem_map.mp nodeIn
  have grows : ∀ node ∈ (inner.framed settings).preorder,
      node.label.Grows settings (5 * span) (node.children.map Program.label) := by
    intro node nodeIn
    rw [preorder_framed] at nodeIn
    obtain ⟨deeper, deeperIn, rfl⟩ := List.mem_map.mp nodeIn
    exact grows_framed accepted within (modest deeper.label
      (List.mem_map_of_mem (mem_preorder_trans innerIn deeperIn)))
  obtain ⟨width, height⟩ := Arrangement.extent_le grows
  rw [preorder_framed, List.length_map] at width height
  have spacingPos := accepted.spacing_pos
  have branchGapPos := accepted.branchGap_pos
  have spanPos := spacingPos.trans_le within.spacing
  have fewer : (inner.preorder.length : Rat) ≤ program.preorder.length := by
    exact_mod_cast (preorder_sublist innerIn).length_le
  have share : 5 * span * inner.preorder.length ≤ 5 * span * program.preorder.length :=
    mul_le_mul_of_nonneg_left fewer (by linarith)
  have spine := (fits_framed_root accepted inner).spine_le
  exact ⟨by linarith, by linarith, by linarith⟩

end Program

end Flowchart
