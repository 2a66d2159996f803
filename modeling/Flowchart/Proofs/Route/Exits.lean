import Flowchart.Proofs.Route.Clear

/-!
# Ways out of constructs

An exit of a construct that is left open has a lane which nothing in the construct
bars, from the exit down to the bottom.  So there is a clear way from it to wherever
the surrounding construct connects it: to the next construct below, to the point
where branches come together, or back around a loop.
-/

namespace Flowchart

open Scalar

/-- An exit leads sideways to a lane, and from there down past everything. -/
structure Leaves (settings : LayoutSettings Rat)
    (nodes : List (DiagramNode Rat)) (bounds : Rect Rat) (line : Rat)
    (exit : OpenExit) (source : DiagramNode Rat) (start : Point Rat)
    (lane : Rat) : Prop where
  sourceIn : source ∈ nodes
  isSource : source.id = exit.source.node
  isStart : source.anchor? exit.source.anchor = some start
  kind : (exit.kind = .sequential ∧ lane = start.x ∧ start.y = bounds.maxY) ∨
    (exit.kind = .loopExit ∧
      lane = source.bounds.maxX - settings.loopClearance / 2 ∧
      source.bounds.maxY = bounds.maxY)
  right : line ≤ start.x
  laneRight : start.x ≤ lane
  laneInside : lane ≤ bounds.maxX
  top : bounds.minY ≤ start.y
  bottom : start.y ≤ bounds.maxY
  sideways : Figures nodes fun figure => figure.Beside start ⟨lane, start.y⟩
  downwards : Figures nodes fun figure =>
    figure.maxX ≤ lane ∨ lane ≤ figure.minX ∨ figure.maxY ≤ start.y

namespace Leaves

variable {settings : LayoutSettings Rat} {nodes : List (DiagramNode Rat)}
  {bounds : Rect Rat} {line lane : Rat} {exit : OpenExit}
  {source target : DiagramNode Rat} {start finish : Point Rat}
  {endpoint : Endpoint} {tag : Tag}

theorem waypoints_entry
    (leaves : Leaves settings nodes bounds line exit source start lane)
    (isEntry : endpoint.anchor = .entry) :
    settings.waypoints source target (exit.connect endpoint tag) start finish =
      Polyline.stairs start.x start.y lane ((bounds.maxY + finish.y) / 2)
        finish.x finish.y := by
  rcases leaves.kind with ⟨kind, rfl, level⟩ | ⟨kind, rfl, level⟩ <;>
    rw [← level] <;>
    cases tag <;>
    simp [LayoutSettings.waypoints, LayoutSettings.descent, OpenExit.connect,
      OpenExit.kindTo, ConnectorKind.isLateral, kind, isEntry, half_exact]

theorem waypoints_end
    (leaves : Leaves settings nodes bounds line exit source start lane)
    (isEnd : endpoint.anchor = .merge ∨ endpoint.anchor = .exit) :
    settings.waypoints source target (exit.connect endpoint tag) start finish =
      [⟨start.x, start.y⟩, ⟨lane, start.y⟩, ⟨lane, finish.y⟩,
        ⟨finish.x, finish.y⟩] := by
  rcases leaves.kind with ⟨kind, rfl, level⟩ | ⟨kind, rfl, level⟩ <;>
    rcases isEnd with isEnd | isEnd <;>
    cases tag <;>
    simp [LayoutSettings.waypoints, LayoutSettings.descent, OpenExit.connect,
      OpenExit.kindTo, kind, isEnd, half_exact]

theorem waypoints_back
    (leaves : Leaves settings nodes bounds line exit source start lane)
    (isBack : endpoint.anchor = .loopBack) :
    settings.waypoints source target (exit.connect endpoint tag) start finish =
      Polyline.stairs start.x start.y lane
          (target.bounds.maxY - settings.statementSpacing / 2)
          (target.bounds.minX + settings.loopClearance / 2) finish.y ++
        [⟨finish.x, finish.y⟩] := by
  rcases leaves.kind with ⟨kind, rfl, level⟩ | ⟨kind, rfl, level⟩ <;>
    cases tag <;>
    simp [LayoutSettings.waypoints, LayoutSettings.descent, OpenExit.connect,
      OpenExit.kindTo, kind, isBack, half_exact]

/-! ## Ways out of a construct -/

variable {all : List (DiagramNode Rat)} {outer : Rect Rat}

/-- Down to the entry of a construct below. -/
theorem way_entry
    (leaves : Leaves settings nodes bounds line exit source start lane)
    (within : Figures nodes (Rect.Inside · bounds))
    (onSpine : bounds.minX ≤ line) {level : Rat}
    (isEntry : endpoint.anchor = .entry) (targetIn : target ∈ all)
    (isTarget : target.id = endpoint.node)
    (isFinish : target.anchor? endpoint.anchor = some ⟨line, level⟩)
    (below : bounds.maxY ≤ level) (subset : nodes ⊆ all)
    (inside : bounds.Inside outer) (notBelow : level ≤ outer.maxY)
    (others : ∀ node ∈ all, node ∈ nodes ∨
      ∀ figure, node.figure = some figure → level ≤ figure.minY) :
    HasWay settings all outer (exit.connect endpoint tag) source target start
      ⟨line, level⟩ := by
  have right := leaves.right
  have laneRight := leaves.laneRight
  have laneInside := leaves.laneInside
  have top := leaves.top
  have bottom := leaves.bottom
  obtain ⟨outerLeft, outerRight, outerTop, outerBottom⟩ := inside
  have waypoints_eq : settings.waypoints source target
      (exit.connect endpoint tag) start ⟨line, level⟩ =
        Polyline.stairs start.x start.y lane ((bounds.maxY + level) / 2) line
          level := leaves.waypoints_entry isEntry
  refine ⟨subset leaves.sourceIn, targetIn, leaves.isSource, isTarget,
    leaves.isStart, isFinish, ?_, ?_, ?_⟩
  · rw [waypoints_eq]
    exact Polyline.keeps_five (.inl ⟨right, laneRight⟩)
  · rw [waypoints_eq]
    simp only [List.forall_mem_cons, Rect.Holds]
    refine ⟨?_, ?_, ?_, ?_, ?_, by simp⟩ <;>
      refine ⟨?_, ?_, ?_, ?_⟩ <;> linarith
  · rw [waypoints_eq]
    intro node nodeIn figure isFigure
    rcases others node nodeIn with inNodes | isBelow
    · obtain ⟨-, -, -, figureBottom⟩ := within node inNodes figure isFigure
      simp only [Rect.Avoided, List.isChain_cons_cons, List.isChain_singleton,
        and_true]
      refine ⟨leaves.sideways node inNodes figure isFigure, ?_,
        .inr (.inr (.inr ⟨by linarith, by linarith⟩)),
        .inr (.inr (.inr ⟨by linarith, by linarith⟩))⟩
      rcases leaves.downwards node inNodes figure isFigure with isLeft | isRight |
        isAbove
      · exact .inr (.inl ⟨isLeft, isLeft⟩)
      · exact .inl ⟨isRight, isRight⟩
      · exact .inr (.inr (.inr ⟨isAbove, by linarith⟩))
    · have clearOf := isBelow figure isFigure
      refine Rect.avoided_of_above ?_
      simp only [List.forall_mem_cons]
      refine ⟨?_, ?_, ?_, ?_, ?_, by simp⟩ <;> linarith

/-- Down to where branches come together, or to the end of a function. -/
theorem way_end
    (leaves : Leaves settings nodes bounds line exit source start lane)
    (within : Figures nodes (Rect.Inside · bounds))
    (onSpine : bounds.minX ≤ line)
    (isEnd : endpoint.anchor = .merge ∨ endpoint.anchor = .exit)
    (targetIn : target ∈ all) (isTarget : target.id = endpoint.node)
    (isFinish : target.anchor? endpoint.anchor = some finish)
    (below : bounds.maxY ≤ finish.y) (subset : nodes ⊆ all)
    (inside : bounds.Inside outer) (finishIn : outer.Holds finish)
    (others : ∀ node ∈ all, node ∈ nodes ∨
      ∀ figure, node.figure = some figure → figure.maxY ≤ bounds.minY ∨
        (figure.maxX ≤ bounds.minX ∨ bounds.maxX ≤ figure.minX) ∧
          figure.maxY ≤ finish.y) :
    HasWay settings all outer (exit.connect endpoint tag) source target start
      finish := by
  have right := leaves.right
  have laneRight := leaves.laneRight
  have laneInside := leaves.laneInside
  have top := leaves.top
  have bottom := leaves.bottom
  obtain ⟨outerLeft, outerRight, outerTop, outerBottom⟩ := inside
  obtain ⟨finishLeft, finishRight, finishTop, finishBottom⟩ := finishIn
  have waypoints_eq : settings.waypoints source target
      (exit.connect endpoint tag) start finish =
        [⟨start.x, start.y⟩, ⟨lane, start.y⟩, ⟨lane, finish.y⟩,
          ⟨finish.x, finish.y⟩] := leaves.waypoints_end isEnd
  refine ⟨subset leaves.sourceIn, targetIn, leaves.isSource, isTarget,
    leaves.isStart, isFinish, ?_, ?_, ?_⟩
  · rw [waypoints_eq]
    exact Polyline.keeps_four
  · rw [waypoints_eq]
    simp only [List.forall_mem_cons, Rect.Holds]
    refine ⟨?_, ?_, ?_, ?_, by simp⟩ <;>
      refine ⟨?_, ?_, ?_, ?_⟩ <;> linarith
  · rw [waypoints_eq]
    intro node nodeIn figure isFigure
    simp only [Rect.Avoided, List.isChain_cons_cons, List.isChain_singleton,
      and_true]
    rcases others node nodeIn with inNodes | isOther
    · obtain ⟨-, -, -, figureBottom⟩ := within node inNodes figure isFigure
      refine ⟨leaves.sideways node inNodes figure isFigure, ?_,
        .inr (.inr (.inr ⟨by linarith, by linarith⟩))⟩
      rcases leaves.downwards node inNodes figure isFigure with isLeft | isRight |
        isAbove
      · exact .inr (.inl ⟨isLeft, isLeft⟩)
      · exact .inl ⟨isRight, isRight⟩
      · exact .inr (.inr (.inr ⟨isAbove, by linarith⟩))
    · rcases isOther figure isFigure with isAbove | ⟨isLeft | isRight, isAbove⟩
      · exact ⟨.inr (.inr (.inr ⟨by linarith, by linarith⟩)),
          .inr (.inr (.inr ⟨by linarith, by linarith⟩)),
          .inr (.inr (.inr ⟨by linarith, by linarith⟩))⟩
      · exact ⟨.inr (.inl ⟨by linarith, by linarith⟩),
          .inr (.inl ⟨by linarith, by linarith⟩),
          .inr (.inr (.inr ⟨isAbove, isAbove⟩))⟩
      · exact ⟨.inl ⟨by linarith, by linarith⟩,
          .inl ⟨by linarith, by linarith⟩,
          .inr (.inr (.inr ⟨isAbove, isAbove⟩))⟩

/-- Around a loop, back to its head. -/
theorem way_back
    (leaves : Leaves settings nodes bounds line exit source start lane)
    (within : Figures nodes (Rect.Inside · bounds))
    (onSpine : bounds.minX ≤ line)
    (isBack : endpoint.anchor = .loopBack)
    (targetIn : target ∈ all) (isTarget : target.id = endpoint.node)
    (isFinish : target.anchor? endpoint.anchor = some finish)
    (subset : nodes ⊆ all) (inside : bounds.Inside outer)
    (finishIn : outer.Holds finish)
    (turnBelow : bounds.maxY ≤
      target.bounds.maxY - settings.statementSpacing / 2)
    (turnInside : target.bounds.maxY - settings.statementSpacing / 2 ≤
      outer.maxY)
    (laneLeft : target.bounds.minX + settings.loopClearance / 2 ≤ bounds.minX)
    (laneHeld : outer.minX ≤ target.bounds.minX + settings.loopClearance / 2)
    (finishRight : target.bounds.minX + settings.loopClearance / 2 ≤ finish.x)
    (finishAbove : finish.y ≤ bounds.minY)
    (others : ∀ node ∈ all, node ∈ nodes ∨
      ∀ figure, node.figure = some figure →
        figure.maxY ≤ bounds.minY ∧ finish.x ≤ figure.minX) :
    HasWay settings all outer (exit.connect endpoint tag) source target start
      finish := by
  have right := leaves.right
  have laneRight := leaves.laneRight
  have laneInside := leaves.laneInside
  have top := leaves.top
  have bottom := leaves.bottom
  obtain ⟨outerLeft, outerRight, outerTop, outerBottom⟩ := inside
  obtain ⟨-, finishHeld, finishTop, finishBottom⟩ := finishIn
  have waypoints_eq : settings.waypoints source target
      (exit.connect endpoint tag) start finish =
        Polyline.stairs start.x start.y lane
            (target.bounds.maxY - settings.statementSpacing / 2)
            (target.bounds.minX + settings.loopClearance / 2) finish.y ++
          [⟨finish.x, finish.y⟩] := leaves.waypoints_back isBack
  refine ⟨subset leaves.sourceIn, targetIn, leaves.isSource, isTarget,
    leaves.isStart, isFinish, ?_, ?_, ?_⟩
  · rw [waypoints_eq]
    exact Polyline.keeps_six (.inl ⟨by linarith, laneRight⟩) (by linarith)
      (by linarith) finish.x
  · rw [waypoints_eq]
    simp only [List.cons_append, List.nil_append, List.forall_mem_cons,
      Rect.Holds]
    refine ⟨?_, ?_, ?_, ?_, ?_, ?_, by simp⟩ <;>
      refine ⟨?_, ?_, ?_, ?_⟩ <;> linarith
  · rw [waypoints_eq]
    intro node nodeIn figure isFigure
    simp only [Rect.Avoided, List.cons_append, List.nil_append,
      List.isChain_cons_cons, List.isChain_singleton, and_true]
    rcases others node nodeIn with inNodes | isOther
    · obtain ⟨figureLeft, -, figureTop, figureBottom⟩ :=
        within node inNodes figure isFigure
      refine ⟨leaves.sideways node inNodes figure isFigure, ?_,
        .inr (.inr (.inr ⟨by linarith, by linarith⟩)),
        .inl ⟨by linarith, by linarith⟩,
        .inr (.inr (.inl ⟨by linarith, by linarith⟩))⟩
      rcases leaves.downwards node inNodes figure isFigure with isLeft | isRight |
        isAbove
      · exact .inr (.inl ⟨isLeft, isLeft⟩)
      · exact .inl ⟨isRight, isRight⟩
      · exact .inr (.inr (.inr ⟨isAbove, by linarith⟩))
    · obtain ⟨isAbove, isRight⟩ := isOther figure isFigure
      exact ⟨.inr (.inr (.inr ⟨by linarith, by linarith⟩)),
        .inr (.inr (.inr ⟨by linarith, by linarith⟩)),
        .inr (.inr (.inr ⟨by linarith, by linarith⟩)),
        .inl ⟨by linarith, by linarith⟩, .inl ⟨by linarith, by linarith⟩⟩

end Leaves

end Flowchart
