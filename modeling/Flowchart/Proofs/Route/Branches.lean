import Flowchart.Proofs.Route.Channel

/-!
# Branches below a figure

A decision, a selection, a loop or a function has its figure over its children.
The edges that the construct adds to the channels of its children run from the
figure down to them, and from their exits past the children beside them to where
the construct takes them up.
-/

namespace Flowchart

open Scalar

/-- A child of a construct in its place, with the channel through it. -/
structure Branch (settings : LayoutSettings Rat)
    (arrangement : Arrangement Rat) (origin : Point Rat) (depth index : Nat)
    (child : Arrangement Rat) (wiring : Wiring) : Prop where
  isChild : arrangement.children[index]? = some child
  channel : Channel settings
    (child.place (Arrangement.childOrigin origin arrangement.label index)
      (some arrangement.label.id) (depth + 1))
    (child.label.bounds
      (Arrangement.childOrigin origin arrangement.label index))
    ((Arrangement.childOrigin origin arrangement.label index).x +
      child.label.spine) wiring

section Branches

variable {settings : LayoutSettings Rat} {arrangement child : Arrangement Rat}
  {figure : Rect Rat} {top : Rat} {origin : Point Rat}
  {parent : Option NodeId} {depth index : Nat} {wiring : Wiring}
  (fits : arrangement.Fits)
  (headed : arrangement.label.Headed figure
    (arrangement.children.map Program.label) top)

section Figures

include headed

/-- All children stand at one height, below the figure. -/
theorem bounds_child (isChild : arrangement.children[index]? = some child) :
    child.label.bounds
        (Arrangement.childOrigin origin arrangement.label index) =
      ⟨origin.x + (arrangement.label.offset index).x, origin.y + top,
        origin.x + (arrangement.label.offset index).x + child.label.size.width,
        origin.y + top + child.label.size.height⟩ := by
  obtain ⟨atTop, -⟩ := headed.child index child.label
    (Arrangement.frame_getElem? isChild)
  rw [← atTop]
  rfl

theorem center_between :
    figure.minY ≤ figure.center.y ∧ figure.center.y ≤ figure.maxY := by
  have high := headed.high
  simp only [Rect.center, half_exact]
  constructor <;> linarith

include fits

/-- A figure in the construct is its own or belongs to one of the children. -/
theorem figure_cases {node : DiagramNode Rat}
    (nodeIn : node ∈ arrangement.place origin parent depth)
    {shown : Rect Rat} (isFigure : node.figure = some shown) :
    shown = figure.translate origin ∨
      ∃ (index : Nat) (child : Arrangement Rat),
        arrangement.children[index]? = some child ∧
        node ∈ child.place
          (Arrangement.childOrigin origin arrangement.label index)
          (some arrangement.label.id) (depth + 1) ∧
        shown.Inside (child.label.bounds
          (Arrangement.childOrigin origin arrangement.label index)) := by
  rcases Arrangement.mem_place.mp nodeIn with
    rfl | ⟨index, child, isChild, inChild⟩
  · rw [Arrangement.nodeAt, headed.isFigure] at isFigure
    exact .inl (Option.some.inj isFigure).symm
  · exact .inr ⟨index, child, isChild, inChild,
      Arrangement.figures_inside (fits.child_of_getElem? isChild) _ _ _ node
        inChild shown isFigure⟩

/-- Below the figure lie children only, and these at one height. -/
theorem above_or_below {node : DiagramNode Rat}
    (nodeIn : node ∈ arrangement.place origin parent depth)
    {shown : Rect Rat} (isFigure : node.figure = some shown) :
    shown = figure.translate origin ∨ origin.y + top ≤ shown.minY := by
  refine (figure_cases fits headed nodeIn isFigure).imp_right ?_
  rintro ⟨index, child, isChild, -, -, -, below, -⟩
  rwa [bounds_child headed isChild] at below

end Figures

/-- The children stand side by side. -/
theorem aside {child other : Arrangement Rat} {index later : Nat}
    (headed : arrangement.label.Headed figure
      (arrangement.children.map Program.label) top)
    (isChild : arrangement.children[index]? = some child)
    (isOther : arrangement.children[later]? = some other)
    (different : index ≠ later) :
    (arrangement.label.offset index).x + child.label.size.width ≤
        (arrangement.label.offset later).x ∨
      (arrangement.label.offset later).x + other.label.size.width ≤
        (arrangement.label.offset index).x :=
  (Nat.lt_or_gt_of_ne different).imp
    (fun before => headed.row index later _ _ before
      (Arrangement.frame_getElem? isChild) (Arrangement.frame_getElem? isOther))
    fun after => headed.row later index _ _ after
      (Arrangement.frame_getElem? isOther) (Arrangement.frame_getElem? isChild)

namespace Branch

variable
  (branch : Branch settings arrangement origin depth index child wiring)

include fits branch

theorem inner : ∀ edge ∈ wiring.edges,
    IsClear settings (arrangement.place origin parent depth)
      (arrangement.label.bounds origin) edge :=
  fun edge edgeIn => Arrangement.clear_child fits branch.isChild
    (branch.channel.edges edge edgeIn)

include headed

/-- Where flow enters the branch. -/
theorem entered (parent : Option NodeId) : ∃ column id tag target,
    wiring.entry = some (⟨id, .entry⟩, tag) ∧
      target ∈ arrangement.place origin parent depth ∧ target.id = id ∧
      target.anchor? .entry = some ⟨column, origin.y + top⟩ ∧
      origin.x + (arrangement.label.offset index).x ≤ column ∧
      (arrangement.label.bounds origin).Holds ⟨column, origin.y + top⟩ := by
  obtain ⟨id, tag, target, isEntry, targetIn, isTarget, isAnchor⟩ :=
    branch.channel.entered
  have left := branch.channel.left
  have inside := (Arrangement.child_inside fits branch.isChild origin).holds
    branch.channel.entry_holds
  rw [bounds_child headed branch.isChild] at isAnchor left inside
  exact ⟨_, id, tag, target, isEntry,
    Arrangement.place_subset branch.isChild _ _ _ targetIn, isTarget, isAnchor,
    left, inside⟩

/-- An edge leads from below the figure straight down to where flow enters the
branch. -/
theorem enters {exit : OpenExit} (fromNode : exit.source.node = arrangement.label.id)
    (plain : exit.kind.isLateral = false)
    (onSpine : arrangement.label.anchors.lookup exit.source.anchor =
      some ⟨arrangement.label.spine, figure.maxY⟩) :
    ∀ edge ∈ exit.connectTo wiring.entry,
      IsClear settings (arrangement.place origin parent depth)
        (arrangement.label.bounds origin) edge := by
  obtain ⟨column, id, tag, target, isEntry, targetIn, isTarget, isFinish, -,
    inside⟩ := branch.entered fits headed parent
  intro edge edgeIn
  obtain rfl : edge = exit.connect ⟨id, .entry⟩ tag := by
    simpa [OpenExit.connectTo, isEntry] using edgeIn
  have stillPlain :
      (exit.connect ⟨id, .entry⟩ tag).kind.isLateral = false := by
    cases kind : exit.kind <;> cases tag <;>
      simp_all [OpenExit.connect, OpenExit.kindTo, ConnectorKind.isLateral]
  obtain ⟨finishLeft, finishRight, -, finishBottom⟩ := inside
  have startLeft := headed.left.trans headed.leftOfSpine
  have startRight := headed.rightOfSpine.trans headed.right
  have startBelow := headed.above.trans headed.high.le
  have startAbove := headed.below
  refine ⟨_, target, ⟨origin.x + arrangement.label.spine,
    origin.y + figure.maxY⟩, ⟨column, origin.y + top⟩,
    Arrangement.self_mem_place origin parent depth arrangement, targetIn,
    fromNode.symm, isTarget, Arrangement.anchor?_nodeAt onSpine, isFinish, ?_,
    ?_, ?_⟩
  · rw [LayoutSettings.waypoints_straight stillPlain rfl]
    rcases le_total (origin.x + arrangement.label.spine) column with
      before | after
    · exact Polyline.keeps_five (.inr ⟨le_refl _, before⟩)
    · exact Polyline.keeps_five (.inl ⟨after, le_refl _⟩)
  · rw [LayoutSettings.waypoints_straight stillPlain rfl]
    simp only [Frame.bounds, Rect.ofTopLeft]
      at finishLeft finishRight finishBottom
    simp only [List.forall_mem_cons, Rect.Holds, Frame.bounds, Rect.ofTopLeft]
    refine ⟨?_, ?_, ?_, ?_, ?_, by simp⟩ <;>
      refine ⟨?_, ?_, ?_, ?_⟩ <;> linarith
  · rw [LayoutSettings.waypoints_straight stillPlain rfl]
    intro node nodeIn shown isFigure
    rcases above_or_below fits headed nodeIn isFigure with rfl | below
    · refine Rect.avoided_of_below ?_
      simp only [List.forall_mem_cons, Rect.translate]
      refine ⟨?_, ?_, ?_, ?_, ?_, by simp⟩ <;> linarith
    · refine Rect.avoided_of_above ?_
      simp only [List.forall_mem_cons]
      refine ⟨?_, ?_, ?_, ?_, ?_, by simp⟩ <;> linarith

/-- The exits of a branch lead down past the other branches. -/
theorem joins {anchor : Anchor} {tag : Tag} {x y : Rat}
    (isEnd : anchor = .merge ∨ anchor = .exit)
    (isAnchor : arrangement.label.anchors.lookup anchor = some ⟨x, y⟩)
    (left : 0 ≤ x) (right : x ≤ arrangement.label.size.width)
    (bottom : y ≤ arrangement.label.size.height)
    (below : ∀ other ∈ arrangement.children,
      top + other.label.size.height ≤ y) :
    ∀ edge ∈ wiring.close ⟨arrangement.label.id, anchor⟩ tag,
      IsClear settings (arrangement.place origin parent depth)
        (arrangement.label.bounds origin) edge := by
  intro edge edgeIn
  obtain ⟨exit, exitIn, rfl⟩ := List.mem_map.mp edgeIn
  obtain ⟨source, start, lane, leaves⟩ := branch.channel.exits exit exitIn
  have isChild := branch.isChild
  have childIn := List.mem_of_getElem? isChild
  have childAbove := below child childIn
  have tall := branch.channel.tall
  rw [bounds_child headed isChild] at tall
  refine ⟨source, _, start, ⟨origin.x + x, origin.y + y⟩,
    leaves.way_end branch.channel.within branch.channel.left isEnd
      (Arrangement.self_mem_place origin parent depth arrangement) rfl
      (Arrangement.anchor?_nodeAt isAnchor) ?_
      (Arrangement.place_subset isChild _ _ _)
      (Arrangement.child_inside fits isChild origin) ?_ ?_⟩
  · rw [bounds_child headed isChild]
    dsimp only
    linarith
  · have aboveEnd := headed.above.trans headed.high.le
    have figureAbove := headed.below
    simp only [Frame.bounds, Rect.ofTopLeft, Rect.Holds]
    refine ⟨by linarith, by linarith, ?_, by linarith⟩
    linarith
  · intro node nodeIn
    rcases Arrangement.mem_place.mp nodeIn with
      rfl | ⟨later, other, isOther, inOther⟩
    · refine .inr fun shown isFigure => .inl ?_
      rw [Arrangement.nodeAt, headed.isFigure] at isFigure
      obtain rfl := Option.some.inj isFigure
      have figureAbove := headed.below
      rw [bounds_child headed isChild]
      simp only [Rect.translate]
      linarith
    · by_cases same : index = later
      · subst same
        obtain rfl := Option.some.inj (isChild.symm.trans isOther)
        exact .inl inOther
      · refine .inr fun shown isFigure => .inr ?_
        have within := Arrangement.figures_inside
          (fits.child_of_getElem? isOther) _ _ _ node inOther shown isFigure
        have otherAbove := below other (List.mem_of_getElem? isOther)
        rw [bounds_child headed isOther] at within
        obtain ⟨shownLeft, shownRight, -, shownBottom⟩ := within
        rw [bounds_child headed isChild]
        dsimp only at shownLeft shownRight shownBottom ⊢
        refine ⟨?_, by linarith⟩
        rcases aside headed isChild isOther same with before | after
        · exact .inr (by linarith)
        · exact .inl (by linarith)

/-- All edges of a branch that comes together with the others at the bottom of
the spine. -/
theorem branchEdges {exit : OpenExit} {tag : Tag}
    (enters : ∀ edge ∈ exit.connectTo wiring.entry,
      IsClear settings (arrangement.place origin parent depth)
        (arrangement.label.bounds origin) edge)
    (atBottom : arrangement.label.anchors.lookup .merge =
      some ⟨arrangement.label.spine, arrangement.label.size.height⟩) :
    ∀ edge ∈ Wiring.branchEdges arrangement.label.id tag exit wiring,
      IsClear settings (arrangement.place origin parent depth)
        (arrangement.label.bounds origin) edge := by
  have childrenAbove : ∀ other ∈ arrangement.children,
      top + other.label.size.height ≤ arrangement.label.size.height := by
    intro other otherIn
    obtain ⟨index, isOther⟩ := List.getElem?_of_mem otherIn
    obtain ⟨-, -, -, above⟩ := headed.child index other.label
      (Arrangement.frame_getElem? isOther)
    exact above
  intro edge edgeIn
  rw [Wiring.branchEdges, List.mem_append, List.mem_append] at edgeIn
  rcases edgeIn with (inner | entering) | joining
  · exact branch.inner fits edge inner
  · exact enters edge entering
  · exact branch.joins fits headed (.inl rfl) atBottom fits.root.spine_nonneg
      fits.root.spine_le (le_refl _) childrenAbove edge joining

end Branch

/-! ## Edges beside the figure -/

section Aside

variable {exit : OpenExit} (kind : exit.kind = .branchFalse)
  (fromNode : exit.source.node = arrangement.label.id)
  (atSide : arrangement.label.anchors.lookup exit.source.anchor =
    some ⟨figure.maxX, figure.center.y⟩)

include fits headed kind fromNode atSide

/-- An edge leads sideways out of the figure and down to where flow enters a
branch that lies to the right of it. -/
theorem Branch.entersAside
    (branch : Branch settings arrangement origin depth index child wiring)
    (rightOfFigure : figure.maxX ≤ (arrangement.label.offset index).x) :
    ∀ edge ∈ exit.connectTo wiring.entry,
      IsClear settings (arrangement.place origin parent depth)
        (arrangement.label.bounds origin) edge := by
  obtain ⟨column, id, tag, target, isEntry, targetIn, isTarget, isFinish,
    beside, inside⟩ := branch.entered fits headed parent
  intro edge edgeIn
  obtain rfl : edge = exit.connect ⟨id, .entry⟩ tag := by
    simpa [OpenExit.connectTo, isEntry] using edgeIn
  obtain ⟨finishLeft, finishRight, -, finishBottom⟩ := inside
  obtain ⟨centerLow, centerHigh⟩ := center_between headed
  have figureLeft := headed.left.trans headed.wide.le
  have figureRight := headed.right
  have figureAbove := headed.above
  have figureBelow := headed.below
  have waypoints_eq : ∀ source target : DiagramNode Rat,
      settings.waypoints source target (exit.connect ⟨id, .entry⟩ tag)
          ⟨origin.x + figure.maxX, origin.y + figure.center.y⟩
          ⟨column, origin.y + top⟩ =
        [⟨origin.x + figure.maxX, origin.y + figure.center.y⟩,
          ⟨column, origin.y + figure.center.y⟩, ⟨column, origin.y + top⟩] := by
    intro source target
    cases tag <;>
      simp [LayoutSettings.waypoints, OpenExit.connect, OpenExit.kindTo, kind]
  refine ⟨_, target, ⟨origin.x + figure.maxX, origin.y + figure.center.y⟩,
    ⟨column, origin.y + top⟩,
    Arrangement.self_mem_place origin parent depth arrangement, targetIn,
    fromNode.symm, isTarget, Arrangement.anchor?_nodeAt atSide, isFinish, ?_, ?_,
    ?_⟩
  · rw [waypoints_eq]
    exact Polyline.keeps_three
  · rw [waypoints_eq]
    simp only [Frame.bounds, Rect.ofTopLeft]
      at finishLeft finishRight finishBottom
    simp only [List.forall_mem_cons, Rect.Holds, Frame.bounds, Rect.ofTopLeft]
    refine ⟨?_, ?_, ?_, by simp⟩ <;> refine ⟨?_, ?_, ?_, ?_⟩ <;> linarith
  · rw [waypoints_eq]
    intro node nodeIn shown isFigure
    rcases above_or_below fits headed nodeIn isFigure with rfl | below
    · simp only [Rect.Avoided, List.isChain_cons_cons, List.isChain_singleton,
        and_true, Rect.Beside, Rect.translate]
      exact ⟨.inr (.inl ⟨by linarith, by linarith⟩),
        .inr (.inl ⟨by linarith, by linarith⟩)⟩
    · refine Rect.avoided_of_above ?_
      simp only [List.forall_mem_cons]
      refine ⟨?_, ?_, ?_, by simp⟩ <;> linarith

/-- An edge leads sideways out of the figure, down a lane to the right of all
branches, and back to where the branches come together. -/
theorem bypass {tag : Tag}
    (atBottom : arrangement.label.anchors.lookup .merge =
      some ⟨arrangement.label.spine, arrangement.label.size.height⟩)
    (gapped : 0 ≤ settings.branchGap)
    (figureLeft : figure.maxX + settings.branchGap ≤
      arrangement.label.size.width)
    (childrenLeft : ∀ index child, arrangement.children[index]? = some child →
      (arrangement.label.offset index).x + child.label.size.width +
        settings.branchGap ≤ arrangement.label.size.width) :
    IsClear settings (arrangement.place origin parent depth)
      (arrangement.label.bounds origin)
      (exit.connect ⟨arrangement.label.id, .merge⟩ tag) := by
  obtain ⟨centerLow, centerHigh⟩ := center_between headed
  have spineLeft := fits.root.spine_nonneg
  have spineRight := fits.root.spine_le
  have figureRight := headed.left.trans headed.wide.le
  have figureAbove := headed.above
  have figureBelow := headed.below
  have bottom := headed.bottom
  obtain ⟨lane, lane_eq⟩ : ∃ lane, lane =
      origin.x + arrangement.label.size.width - settings.branchGap / 2 :=
    ⟨_, rfl⟩
  have waypoints_eq : settings.waypoints
      (Arrangement.nodeAt origin parent depth arrangement.tag arrangement.label)
      (Arrangement.nodeAt origin parent depth arrangement.tag arrangement.label)
      (exit.connect ⟨arrangement.label.id, .merge⟩ tag)
      ⟨origin.x + figure.maxX, origin.y + figure.center.y⟩
      ⟨origin.x + arrangement.label.spine,
        origin.y + arrangement.label.size.height⟩ =
        [⟨origin.x + figure.maxX, origin.y + figure.center.y⟩,
          ⟨lane, origin.y + figure.center.y⟩,
          ⟨lane, origin.y + arrangement.label.size.height⟩,
          ⟨origin.x + arrangement.label.spine,
            origin.y + arrangement.label.size.height⟩] := by
    rw [lane_eq]
    cases tag <;>
      simp [LayoutSettings.waypoints, LayoutSettings.descent, OpenExit.connect,
        OpenExit.kindTo, kind, half_exact, Arrangement.nodeAt, Rect.ofTopLeft]
  refine ⟨_, _, ⟨origin.x + figure.maxX, origin.y + figure.center.y⟩,
    ⟨origin.x + arrangement.label.spine,
      origin.y + arrangement.label.size.height⟩,
    Arrangement.self_mem_place origin parent depth arrangement,
    Arrangement.self_mem_place origin parent depth arrangement, fromNode.symm,
    rfl, Arrangement.anchor?_nodeAt atSide, Arrangement.anchor?_nodeAt atBottom,
    ?_, ?_, ?_⟩
  · rw [waypoints_eq]
    exact Polyline.keeps_four
  · rw [waypoints_eq]
    simp only [List.forall_mem_cons, Rect.Holds, Frame.bounds, Rect.ofTopLeft]
    refine ⟨?_, ?_, ?_, ?_, by simp⟩ <;>
      refine ⟨?_, ?_, ?_, ?_⟩ <;> linarith
  · rw [waypoints_eq]
    intro node nodeIn shown isFigure
    simp only [Rect.Avoided, List.isChain_cons_cons, List.isChain_singleton,
      and_true, Rect.Beside]
    rcases figure_cases fits headed nodeIn isFigure with
      rfl | ⟨index, child, isChild, -, -, isRight, below, isBottom⟩
    · simp only [Rect.translate]
      exact ⟨.inr (.inl ⟨by linarith, by linarith⟩),
        .inr (.inl ⟨by linarith, by linarith⟩),
        .inr (.inr (.inr ⟨by linarith, by linarith⟩))⟩
    · obtain ⟨-, -, -, childAbove⟩ := headed.child index child.label
        (Arrangement.frame_getElem? isChild)
      have childLeft := childrenLeft index child isChild
      rw [bounds_child headed isChild] at isRight below isBottom
      dsimp only at isRight below isBottom
      exact ⟨.inr (.inr (.inl ⟨by linarith, by linarith⟩)),
        .inr (.inl ⟨by linarith, by linarith⟩),
        .inr (.inr (.inr ⟨by linarith, by linarith⟩))⟩

end Aside

end Branches

end Flowchart
