import Flowchart.Proofs.Layout.Measure
import Flowchart.Proofs.Layout.Tiles
import Flowchart.Proofs.Settings.Accepted

/-!
# Nodes that fit

In exact arithmetic every node holds its figure and its children, and these share
no more than borders with one another.
-/

namespace Flowchart

open Scalar

namespace LayoutSettings.Accepted

variable {settings : LayoutSettings Rat} (accepted : settings.Accepted)

include accepted

theorem spacing_pos : 0 < settings.statementSpacing :=
  not_le.mp accepted.spacing

theorem branchGap_pos : 0 < settings.branchGap :=
  not_le.mp accepted.branchGap

theorem clearance_pos : 0 < settings.loopClearance :=
  not_le.mp accepted.clearance

/-- Every figure encloses an area: a hint can only enlarge it. -/
theorem figureSize_pos (tag : Tag) (label : Label Rat) :
    0 < (Arrangement.figureSize settings tag label).width ∧
      0 < (Arrangement.figureSize settings tag label).height := by
  obtain ⟨-, width, height⟩ := accepted.minimum tag
  have widthPos : 0 < (settings.minimumSizes.forTag tag).width :=
    not_le.mp width
  have heightPos : 0 < (settings.minimumSizes.forTag tag).height :=
    not_le.mp height
  cases hinted : label.hint with
  | none =>
      simp only [Arrangement.figureSize, MinimumSizes.figure, hinted]
      exact ⟨widthPos, heightPos⟩
  | some hint =>
      simp only [Arrangement.figureSize, MinimumSizes.figure, hinted, Size.max,
        larger_exact]
      exact ⟨lt_max_of_lt_right widthPos, lt_max_of_lt_right heightPos⟩

end LayoutSettings.Accepted

namespace Frame

/-- Where the top left corner of a child lies. -/
def offset (frame : Frame Rat) (index : Nat) : Point Rat :=
  frame.offsets[index]?.getD .origin

/-- The place that a node takes up below and to the right of a corner. -/
def bounds (corner : Point Rat) (frame : Frame Rat) : Rect Rat :=
  .ofTopLeft corner frame.size

/-- The spine of a node runs through it. -/
structure Sound (frame : Frame Rat) : Prop where
  spine_nonneg : 0 ≤ frame.spine
  spine_le : frame.spine ≤ frame.size.width
  height_nonneg : 0 ≤ frame.size.height

/-- A node has room for its figure and its children. -/
structure Fits (frame : Frame Rat) (children : List (Frame Rat)) : Prop
    extends Sound frame where
  inside : ∀ (index : Nat) (child : Frame Rat), children[index]? = some child →
    (child.bounds (frame.offset index)).Inside (frame.bounds .origin)
  apart : ∀ (index later : Nat) (first second : Frame Rat), index < later →
    children[index]? = some first → children[later]? = some second →
    (first.bounds (frame.offset index)).Apart
      (second.bounds (frame.offset later))
  figure : ∀ figure, frame.figure = some figure →
    figure.minX < figure.maxX ∧ figure.minY < figure.maxY ∧
      figure.Inside (frame.bounds .origin) ∧
      ∀ (index : Nat) (child : Frame Rat), children[index]? = some child →
        figure.Apart (child.bounds (frame.offset index))

theorem fits_leaf (label : Label Rat) {size : Size Rat} (goesOn : Bool)
    (wide : 0 < size.width) (high : 0 < size.height) :
    (leaf label size goesOn).Fits [] where
  spine_nonneg := by
    simp only [leaf, half_exact]
    linarith
  spine_le := by
    simp only [leaf, half_exact]
    linarith
  height_nonneg := high.le
  inside := by simp
  apart := by simp
  figure := by
    rintro _ ⟨⟩
    refine ⟨?_, ?_, Rect.Inside.refl _, by simp⟩
    · simpa [Rect.ofTopLeft] using wide
    · simpa [Rect.ofTopLeft] using high

/-! ## Figures over children -/

/-- A node with its figure over a row of children, which all start at one
height. -/
structure Headed (frame : Frame Rat) (figure : Rect Rat)
    (children : List (Frame Rat)) (top : Rat) : Prop where
  isFigure : frame.figure = some figure
  wide : figure.minX < figure.maxX
  high : figure.minY < figure.maxY
  leftOfSpine : figure.minX ≤ frame.spine
  rightOfSpine : frame.spine ≤ figure.maxX
  left : 0 ≤ figure.minX
  right : figure.maxX ≤ frame.size.width
  above : 0 ≤ figure.minY
  below : figure.maxY < top
  bottom : top ≤ frame.size.height
  child : ∀ (index : Nat) (child : Frame Rat), children[index]? = some child →
    (frame.offset index).y = top ∧ 0 ≤ (frame.offset index).x ∧
      (frame.offset index).x + child.size.width ≤ frame.size.width ∧
      top + child.size.height ≤ frame.size.height
  row : ∀ (index later : Nat) (first second : Frame Rat), index < later →
    children[index]? = some first → children[later]? = some second →
    (frame.offset index).x + first.size.width ≤ (frame.offset later).x

theorem Headed.fits {frame : Frame Rat} {figure : Rect Rat}
    {children : List (Frame Rat)} {top : Rat}
    (headed : frame.Headed figure children top) : frame.Fits children where
  spine_nonneg := headed.left.trans headed.leftOfSpine
  spine_le := headed.rightOfSpine.trans headed.right
  height_nonneg := by
    linarith [headed.above, headed.high, headed.below, headed.bottom]
  inside := by
    intro index child isChild
    obtain ⟨atTop, left, right, bottom⟩ := headed.child index child isChild
    have nonneg : 0 ≤ top := by
      linarith [headed.above, headed.high, headed.below]
    refine ⟨?_, ?_, ?_, ?_⟩ <;>
      simp only [bounds, Rect.ofTopLeft, Point.origin_x, Point.origin_y, atTop] <;>
      linarith
  apart := by
    intro index later first second isBefore isFirst isSecond
    exact .inl (headed.row index later first second isBefore isFirst isSecond)
  figure := by
    intro other isOther
    obtain rfl := Option.some.inj (headed.isFigure.symm.trans isOther)
    refine ⟨headed.wide, headed.high, ⟨?_, ?_, ?_, ?_⟩,
      fun index child isChild => ?_⟩
    · exact headed.left
    · simpa [bounds, Rect.ofTopLeft] using headed.right
    · exact headed.above
    · have bottom := headed.below.le.trans headed.bottom
      simpa [bounds, Rect.ofTopLeft] using bottom
    · obtain ⟨atTop, -⟩ := headed.child index child isChild
      refine .inr (.inr (.inl ?_))
      simpa only [bounds, Rect.ofTopLeft, atTop] using headed.below.le

/-- The figures of all these constructs stand over their spines. -/
theorem figureOn_exact (spine top : Rat) (size : Size Rat) :
    figureOn spine top size =
      ⟨spine - size.width / 2, top, spine + size.width / 2, top + size.height⟩ := by
  simp only [figureOn, Rect.ofTopLeft, half_exact, Rect.mk.injEq, true_and,
    and_true]
  linarith

theorem headed_of_figureOn {frame : Frame Rat} {size : Size Rat}
    {head top : Rat} {children : List (Frame Rat)}
    (isFigure : frame.figure = some (figureOn frame.spine head size))
    (wide : 0 < size.width) (high : 0 < size.height)
    (left : size.width / 2 ≤ frame.spine)
    (right : frame.spine + size.width / 2 ≤ frame.size.width)
    (above : 0 ≤ head) (below : head + size.height < top)
    (bottom : top ≤ frame.size.height)
    (child : ∀ (index : Nat) (child : Frame Rat),
      children[index]? = some child →
      (frame.offset index).y = top ∧ 0 ≤ (frame.offset index).x ∧
        (frame.offset index).x + child.size.width ≤ frame.size.width ∧
        top + child.size.height ≤ frame.size.height)
    (row : ∀ (index later : Nat) (first second : Frame Rat), index < later →
      children[index]? = some first → children[later]? = some second →
      (frame.offset index).x + first.size.width ≤ (frame.offset later).x) :
    frame.Headed (figureOn frame.spine head size) children top := by
  rw [figureOn_exact] at isFigure ⊢
  exact {
    isFigure
    wide := by
      dsimp only
      linarith
    high := by
      dsimp only
      linarith
    leftOfSpine := by
      dsimp only
      linarith
    rightOfSpine := by
      dsimp only
      linarith
    left := by
      dsimp only
      linarith
    right
    above
    below
    bottom
    child
    row }

variable {settings : LayoutSettings Rat} {size : Size Rat}

section Decision

variable {consequent : Frame Rat} {alternative : Option (Frame Rat)}

theorem decision_spine (label : Label Rat) :
    (decision label size settings consequent alternative).spine =
      max consequent.spine (size.width / 2) := by
  simp only [decision, larger_exact, half_exact]

/-- Right of both the consequent and the figure. -/
def decisionRight (size : Size Rat) (consequent : Frame Rat) : Rat :=
  max consequent.spine (size.width / 2) +
    max consequent.rightOfSpine (size.width / 2)

theorem decision_width (label : Label Rat) :
    (decision label size settings consequent alternative).size.width =
      decisionRight size consequent + settings.branchGap +
        (alternative.map fun frame => frame.size.width).getD 0 := by
  cases alternative <;>
    simp [decision, decisionRight, larger_exact, half_exact]

theorem decision_height (label : Label Rat) :
    (decision label size settings consequent alternative).size.height =
      size.height + settings.statementSpacing +
        (alternative.map fun frame =>
          max consequent.size.height frame.size.height).getD
          consequent.size.height + settings.statementSpacing := by
  cases alternative <;> simp [decision, larger_exact]

theorem decision_offset (label : Label Rat) :
    (decision label size settings consequent alternative).offset 0 =
      ⟨max consequent.spine (size.width / 2) - consequent.spine,
        size.height + settings.statementSpacing⟩ := by
  simp [offset, decision, larger_exact, half_exact]

theorem choice_offset (label : Label Rat) (frame : Frame Rat) :
    (decision label size settings consequent (some frame)).offset 1 =
      ⟨decisionRight size consequent + settings.branchGap,
        size.height + settings.statementSpacing⟩ := by
  simp [offset, decision, decisionRight, larger_exact, half_exact]

theorem le_decisionRight (size : Size Rat) (consequent : Frame Rat) :
    max consequent.spine (size.width / 2) - consequent.spine +
        consequent.size.width ≤ decisionRight size consequent ∧
      max consequent.spine (size.width / 2) + size.width / 2 ≤
        decisionRight size consequent := by
  have rightLe := le_max_left consequent.rightOfSpine (size.width / 2)
  have halfLe := le_max_right consequent.rightOfSpine (size.width / 2)
  have right_eq : consequent.rightOfSpine =
      consequent.size.width - consequent.spine := rfl
  rw [decisionRight]
  exact ⟨by linarith, by linarith⟩

theorem headed_decision (label : Label Rat) (accepted : settings.Accepted)
    (wide : 0 < size.width) (high : 0 < size.height)
    (sound : consequent.Sound) (soundToo : ∀ frame ∈ alternative, frame.Sound) :
    (decision label size settings consequent alternative).Headed
      (figureOn (decision label size settings consequent alternative).spine 0
        size)
      (consequent :: alternative.toList)
      (size.height + settings.statementSpacing) := by
  have gap := accepted.spacing_pos
  have branchGap := accepted.branchGap_pos
  have spineLe := le_max_left consequent.spine (size.width / 2)
  have halfLe := le_max_right consequent.spine (size.width / 2)
  obtain ⟨rightLe, figureLe⟩ := le_decisionRight size consequent
  have tall := sound.height_nonneg
  cases alternative with
  | none =>
      refine headed_of_figureOn rfl wide high ?_ ?_ (le_refl 0) (by linarith)
        ?_ ?_ ?_
      · rwa [decision_spine]
      · rw [decision_spine, decision_width, Option.map_none, Option.getD_none]
        linarith
      · rw [decision_height, Option.map_none, Option.getD_none]
        linarith
      · rintro (_ | index) child isChild
        · obtain rfl : consequent = child := by simpa using isChild
          rw [decision_offset, decision_width, decision_height]
          simp only [Option.map_none, Option.getD_none, true_and]
          exact ⟨by linarith, by linarith, by linarith⟩
        · simp at isChild
      · rintro index (_ | later) first second isBefore - isSecond
        · omega
        · simp at isSecond
  | some frame =>
      have widthNonneg := (soundToo frame rfl).spine_nonneg.trans
        (soundToo frame rfl).spine_le
      have leftLe := le_max_left consequent.size.height frame.size.height
      have rightTall := le_max_right consequent.size.height frame.size.height
      refine headed_of_figureOn rfl wide high ?_ ?_ (le_refl 0) (by linarith)
        ?_ ?_ ?_
      · rwa [decision_spine]
      · rw [decision_spine, decision_width, Option.map_some, Option.getD_some]
        linarith
      · rw [decision_height, Option.map_some, Option.getD_some]
        linarith
      · rintro (_ | _ | index) child isChild
        · obtain rfl : consequent = child := by simpa using isChild
          rw [decision_offset, decision_width, decision_height]
          simp only [Option.map_some, Option.getD_some, true_and]
          exact ⟨by linarith, by linarith, by linarith⟩
        · obtain rfl : frame = child := by simpa using isChild
          rw [choice_offset, decision_width, decision_height]
          simp only [Option.map_some, Option.getD_some, true_and]
          exact ⟨by linarith, le_refl _, by linarith⟩
        · simp at isChild
      · rintro (_ | index) (_ | _ | later) first second isBefore isFirst isSecond
        · omega
        · obtain rfl : consequent = first := by simpa using isFirst
          rw [decision_offset, choice_offset]
          linarith
        · simp at isSecond
        · omega
        · omega
        · simp at isSecond

end Decision

section Loop

variable {body : Frame Rat}

theorem loop_spine (label : Label Rat) :
    (loop label size settings body).spine =
      settings.loopClearance + max body.spine (size.width / 2) := by
  simp only [loop, larger_exact, half_exact]

theorem loop_width (label : Label Rat) :
    (loop label size settings body).size.width =
      settings.loopClearance + max body.spine (size.width / 2) +
        max body.rightOfSpine (size.width / 2) + settings.loopClearance := by
  simp only [loop, larger_exact, half_exact]

theorem loop_height (label : Label Rat) :
    (loop label size settings body).size.height =
      size.height + settings.statementSpacing + body.size.height +
        settings.statementSpacing := rfl

theorem loop_offset (label : Label Rat) :
    (loop label size settings body).offset 0 =
      ⟨(loop label size settings body).spine - body.spine,
        size.height + settings.statementSpacing⟩ := rfl

theorem headed_loop (label : Label Rat) (accepted : settings.Accepted)
    (wide : 0 < size.width) (high : 0 < size.height) (sound : body.Sound) :
    (loop label size settings body).Headed
      (figureOn (loop label size settings body).spine 0 size) [body]
      (size.height + settings.statementSpacing) := by
  have gap := accepted.spacing_pos
  have clearance := accepted.clearance_pos
  have spineLe := le_max_left body.spine (size.width / 2)
  have halfLe := le_max_right body.spine (size.width / 2)
  have rightLe := le_max_left body.rightOfSpine (size.width / 2)
  have halfLeRight := le_max_right body.rightOfSpine (size.width / 2)
  have right_eq : body.rightOfSpine = body.size.width - body.spine := rfl
  have tall := sound.height_nonneg
  refine headed_of_figureOn rfl wide high ?_ ?_ (le_refl 0) (by linarith)
    ?_ ?_ ?_
  · rw [loop_spine]
    linarith
  · rw [loop_spine, loop_width]
    linarith
  · rw [loop_height]
    linarith
  · rintro (_ | index) child isChild
    · obtain rfl : body = child := by simpa using isChild
      rw [loop_offset, loop_spine, loop_width, loop_height]
      simp only [true_and]
      exact ⟨by linarith, by linarith, by linarith⟩
    · simp at isChild
  · rintro index (_ | later) first second isBefore - isSecond
    · omega
    · simp at isSecond

end Loop

section Container

variable {body : Frame Rat} {kind : ContainerKind}

theorem container_spine (label : Label Rat) :
    (container label size settings kind body).spine =
      settings.padding.left + max body.spine (size.width / 2) := by
  cases kind <;> simp only [container, larger_exact, half_exact]

theorem container_width (label : Label Rat) :
    (container label size settings kind body).size.width =
      settings.padding.left + max body.spine (size.width / 2) +
        max body.rightOfSpine (size.width / 2) + settings.padding.right := by
  cases kind <;> simp only [container, larger_exact, half_exact]

theorem container_offset (label : Label Rat) :
    (container label size settings kind body).offset 0 =
      ⟨(container label size settings kind body).spine - body.spine,
        settings.padding.top + size.height + settings.statementSpacing⟩ := by
  cases kind <;> rfl

/-- The body of a container ends a padding above its bottom. -/
theorem container_bottom (label : Label Rat) (accepted : settings.Accepted)
    (kind : ContainerKind) (size : Size Rat) (body : Frame Rat) :
    settings.padding.top + size.height + settings.statementSpacing +
        body.size.height + settings.padding.bottom ≤
      (container label size settings kind body).size.height := by
  have gap := accepted.spacing_pos
  cases kind <;> simp only [container] <;> linarith

theorem headed_container (label : Label Rat) (accepted : settings.Accepted)
    (wide : 0 < size.width) (high : 0 < size.height) (sound : body.Sound) :
    (container label size settings kind body).Headed
      (figureOn (container label size settings kind body).spine
        settings.padding.top size)
      [body]
      (settings.padding.top + size.height + settings.statementSpacing) := by
  have gap := accepted.spacing_pos
  have top : 0 ≤ settings.padding.top := not_lt.mp accepted.top
  have left : 0 ≤ settings.padding.left := not_lt.mp accepted.left
  have right : 0 ≤ settings.padding.right := not_lt.mp accepted.right
  have spineLe := le_max_left body.spine (size.width / 2)
  have halfLe := le_max_right body.spine (size.width / 2)
  have rightLe := le_max_left body.rightOfSpine (size.width / 2)
  have halfLeRight := le_max_right body.rightOfSpine (size.width / 2)
  have right_eq : body.rightOfSpine = body.size.width - body.spine := rfl
  have tall := sound.height_nonneg
  have below : 0 ≤ settings.padding.bottom := not_lt.mp accepted.bottom
  have bodyLe := container_bottom label accepted kind size body
  have isFigure : (container label size settings kind body).figure =
      some (figureOn (container label size settings kind body).spine
        settings.padding.top size) := by
    cases kind <;> rfl
  refine headed_of_figureOn isFigure wide high ?_ ?_ top (by linarith)
    (by linarith) ?_ ?_
  · rw [container_spine]
    linarith
  · rw [container_spine, container_width]
    linarith
  · rintro (_ | index) child isChild
    · obtain rfl : body = child := by simpa using isChild
      rw [container_offset, container_spine, container_width]
      simp only [true_and]
      exact ⟨by linarith, by linarith, by linarith⟩
    · simp at isChild
  · rintro index (_ | later) first second isBefore - isSecond
    · omega
    · simp at isSecond

end Container

section Selection

variable {arms : List (Frame Rat)}

theorem selection_width (label : Label Rat) :
    (selection label size settings arms).size.width =
      max (rowWidth settings.branchGap arms) size.width := by
  simp only [selection, larger_exact]

theorem selection_spine (label : Label Rat) :
    (selection label size settings arms).spine =
      max (rowWidth settings.branchGap arms) size.width / 2 := by
  simp only [selection, larger_exact, half_exact]

theorem selection_height (label : Label Rat) :
    (selection label size settings arms).size.height =
      size.height + settings.statementSpacing +
        largest 0 (arms.map fun arm => arm.size.height) +
        settings.statementSpacing := rfl

/-- The left edges of the arms. -/
def armLefts (settings : LayoutSettings Rat) (size : Size Rat)
    (arms : List (Frame Rat)) : List Rat :=
  tiles settings.branchGap
    ((max (rowWidth settings.branchGap arms) size.width -
      rowWidth settings.branchGap arms) / 2)
    (arms.map fun arm => arm.size.width)

variable (settings size) in
theorem selection_offset (label : Label Rat) {index : Nat} {arm : Frame Rat}
    (isArm : arms[index]? = some arm) :
    ∃ left, (armLefts settings size arms)[index]? = some left ∧
      (selection label size settings arms).offset index =
        ⟨left, size.height + settings.statementSpacing⟩ := by
  obtain ⟨inside, -⟩ := List.getElem?_eq_some_iff.mp isArm
  have insideLefts : index < (armLefts settings size arms).length := by
    simpa [armLefts] using inside
  refine ⟨_, List.getElem?_eq_getElem insideLefts, ?_⟩
  have lefts_eq : (selection label size settings arms).offsets =
      (armLefts settings size arms).map fun left =>
        ⟨left, size.height + settings.statementSpacing⟩ := by
    simp only [selection, rowLefts_eq, larger_exact, half_exact, armLefts]
  simp [offset, lefts_eq, insideLefts]

theorem headed_selection (label : Label Rat) (accepted : settings.Accepted)
    (wide : 0 < size.width) (high : 0 < size.height)
    (sound : ∀ arm ∈ arms, arm.Sound) :
    (selection label size settings arms).Headed
      (figureOn (selection label size settings arms).spine 0 size) arms
      (size.height + settings.statementSpacing) := by
  have gap := accepted.spacing_pos
  have branchGap := accepted.branchGap_pos
  have rowLe := le_max_left (rowWidth settings.branchGap arms) size.width
  have figureLe := le_max_right (rowWidth settings.branchGap arms) size.width
  have tall := le_largest_start 0 (arms.map fun arm => arm.size.height)
  have widths : ∀ width ∈ arms.map (fun arm => arm.size.width), 0 ≤ width := by
    intro width widthIn
    obtain ⟨arm, armIn, rfl⟩ := List.mem_map.mp widthIn
    exact (sound arm armIn).spine_nonneg.trans (sound arm armIn).spine_le
  refine headed_of_figureOn rfl wide high ?_ ?_ (le_refl 0) (by linarith)
    ?_ ?_ ?_
  · rw [selection_spine]
    linarith
  · rw [selection_spine, selection_width]
    linarith
  · rw [selection_height]
    linarith
  · intro index arm isArm
    have armIn := List.mem_of_getElem? isArm
    have armTall := le_largest 0
      (List.mem_map_of_mem (f := fun arm : Frame Rat => arm.size.height) armIn)
    obtain ⟨left, isLeft, offset_eq⟩ :=
      selection_offset settings size label isArm
    obtain ⟨above, below⟩ := tiles_bounds branchGap.le widths isLeft
      (by rw [List.getElem?_map, isArm]; rfl)
    rw [← rowWidth_eq (List.ne_nil_of_mem armIn)] at below
    rw [offset_eq, selection_width, selection_height]
    simp only [true_and]
    exact ⟨by linarith, by linarith, by linarith⟩
  · intro index later first second isBefore isFirst isSecond
    obtain ⟨left, isLeft, offset_eq⟩ :=
      selection_offset settings size label isFirst
    obtain ⟨next, isNext, nextOffset_eq⟩ :=
      selection_offset settings size label isSecond
    have ordered := tiles_ordered branchGap.le widths isBefore isLeft
      (by rw [List.getElem?_map, isFirst]; rfl) isNext
    rw [offset_eq, nextOffset_eq]
    simp only
    linarith

end Selection

/-! ## Columns -/

section Column

variable {gap : Rat} {members : List (Frame Rat)}

/-- The tops of the members of a column. -/
def memberTops (gap : Rat) (members : List (Frame Rat)) : List Rat :=
  tiles gap 0 (members.map fun member => member.size.height)

theorem column_height (label : Label Rat) (gapped : 0 ≤ gap)
    (filled : members ≠ []) (sound : ∀ member ∈ members, member.Sound) :
    (column label gap members).size.height =
      tilesEnd gap 0 (members.map fun member => member.size.height) - gap := by
  obtain ⟨first, rest, rfl⟩ := List.exists_cons_of_ne_nil filled
  have restNonneg : ∀ height ∈ rest.map (fun member => member.size.height),
      0 ≤ height := by
    intro height heightIn
    obtain ⟨member, memberIn, rfl⟩ := List.mem_map.mp heightIn
    exact (sound member (List.mem_cons_of_mem _ memberIn)).height_nonneg
  have firstNonneg := (sound first List.mem_cons_self).height_nonneg
  have ends := le_tilesEnd gapped restNonneg (0 + (first.size.height + gap))
  have height_eq : (column label gap (first :: rest)).size.height =
      larger (stackEnd gap 0 (first :: rest) - gap) 0 := rfl
  rw [height_eq, stackEnd_eq, larger_exact]
  refine max_eq_left ?_
  rw [List.map_cons, tilesEnd]
  linarith

variable (gap) in
theorem column_offset (label : Label Rat) {index : Nat} {member : Frame Rat}
    (isMember : members[index]? = some member) :
    ∃ top, (memberTops gap members)[index]? = some top ∧
      (column label gap members).offset index =
        ⟨(column label gap members).spine - member.spine, top⟩ := by
  obtain ⟨inside, -⟩ := List.getElem?_eq_some_iff.mp isMember
  have insideTops : index < (memberTops gap members).length := by
    simpa [memberTops] using inside
  refine ⟨_, List.getElem?_eq_getElem insideTops, ?_⟩
  have offsets_eq : (column label gap members).offsets =
      members.zipWith
        (fun member top =>
          ⟨(column label gap members).spine - member.spine, top⟩)
        (memberTops gap members) := by
    rw [memberTops, ← stackTops_eq]
    rfl
  rw [offset, offsets_eq, List.getElem?_zipWith, isMember,
    List.getElem?_eq_getElem insideTops]
  rfl

theorem fits_column (label : Label Rat) (gapped : 0 ≤ gap)
    (filled : members ≠ []) (sound : ∀ member ∈ members, member.Sound) :
    (column label gap members).Fits members := by
  have spine_eq : (column label gap members).spine =
      largest 0 (members.map Frame.spine) := rfl
  have width_eq : (column label gap members).size.width =
      largest 0 (members.map Frame.spine) +
        largest 0 (members.map Frame.rightOfSpine) := rfl
  have height_eq := column_height label gapped filled sound
  have spineNonneg := le_largest_start 0 (members.map Frame.spine)
  have rightNonneg := le_largest_start 0 (members.map Frame.rightOfSpine)
  have heights : ∀ height ∈ members.map (fun member => member.size.height),
      0 ≤ height := by
    intro height heightIn
    obtain ⟨member, memberIn, rfl⟩ := List.mem_map.mp heightIn
    exact (sound member memberIn).height_nonneg
  have memberInside : ∀ (index : Nat) (member : Frame Rat),
      members[index]? = some member →
      (member.bounds ((column label gap members).offset index)).Inside
        ((column label gap members).bounds .origin) := by
    intro index member isMember
    have memberIn := List.mem_of_getElem? isMember
    have spineLe := le_largest 0 (List.mem_map_of_mem (f := Frame.spine) memberIn)
    have rightLe := le_largest 0
      (List.mem_map_of_mem (f := Frame.rightOfSpine) memberIn)
    have right_eq : member.rightOfSpine = member.size.width - member.spine := rfl
    obtain ⟨top, isTop, offset_eq⟩ := column_offset gap label isMember
    obtain ⟨above, below⟩ := tiles_bounds gapped heights isTop
      (by rw [List.getElem?_map, isMember]; rfl)
    rw [offset_eq]
    refine ⟨?_, ?_, ?_, ?_⟩
    · simp only [bounds, Rect.ofTopLeft, Point.origin_x]
      linarith
    · simp only [bounds, Rect.ofTopLeft, Point.origin_x]
      linarith
    · exact above
    · simp only [bounds, Rect.ofTopLeft, Point.origin_y]
      linarith
  obtain ⟨first, rest, rfl⟩ := List.exists_cons_of_ne_nil filled
  obtain ⟨-, -, firstAbove, firstBelow⟩ := memberInside 0 first rfl
  have firstTall := (sound first List.mem_cons_self).height_nonneg
  refine ⟨⟨spineNonneg, ?_, ?_⟩, memberInside, ?_, ?_⟩
  · rw [spine_eq, width_eq]
    linarith
  · simp only [bounds, Rect.ofTopLeft, Point.origin_y] at firstAbove firstBelow
    linarith
  · intro index later member next isBefore isMember isNext
    obtain ⟨top, isTop, offset_eq⟩ := column_offset gap label isMember
    obtain ⟨nextTop, isNextTop, nextOffset_eq⟩ :=
      column_offset gap label isNext
    have ordered := tiles_ordered gapped heights isBefore isTop
      (by rw [List.getElem?_map, isMember]; rfl) isNextTop
    rw [offset_eq, nextOffset_eq]
    refine .inr (.inr (.inl ?_))
    simp only [bounds, Rect.ofTopLeft]
    linarith
  · intro figure isFigure
    cases isFigure

end Column

end Frame

end Flowchart
