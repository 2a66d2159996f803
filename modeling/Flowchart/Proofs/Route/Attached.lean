import Flowchart.Proofs.Geometry.Polyline
import Flowchart.Proofs.Results
import Flowchart.Route.Router

/-!
# Paths stay attached

Whatever a diagram looks like and whatever distances a router keeps, the path that
it draws for an edge begins at the one anchor and ends at the other, or close to it.
A path with finite corners only therefore passes the check of its ends, and a path
with other corners is turned down before this check.
-/

namespace Flowchart

open Scalar

variable {α : Type} [Scalar α]

/-! ## The ends of a path -/

namespace Polyline

variable {points : List (Point α)}

theorem start?_ofPoints : (ofPoints points).start? = points.head? := by
  have first := getLast?_foldl_extend points []
  rw [List.append_nil, List.getLast?_reverse] at first
  rw [start?, ofPoints, List.head?_reverse]
  exact first

theorem exists_finish?_ofPoints {goal : Point α}
    (isGoal : points.getLast? = some goal) :
    ∃ last, (ofPoints points).finish? = some last ∧
      (last = goal ∨ last.near goal = true) := by
  obtain ⟨before, rfl⟩ := List.getLast?_eq_some_iff.mp isGoal
  rw [finish?, ofPoints, List.getLast?_reverse, List.foldl_append]
  exact head?_extend _ goal

end Polyline

theorem Point.near_refl [LawfulNear α] {point : Point α}
    (finite : point.isFinite = true) : point.near point = true := by
  rw [Point.isFinite, Bool.and_eq_true] at finite
  rw [Point.near, Bool.and_eq_true]
  exact ⟨LawfulNear.near_refl finite.1, LawfulNear.near_refl finite.2⟩

namespace LayoutSettings

variable {settings : LayoutSettings α} {source target : DiagramNode α}
  {edge : Edge} {start finish : Point α}

/-- All ways from one anchor to another begin with the one. -/
theorem head?_waypoints :
    (settings.waypoints source target edge start finish).head? = some start := by
  unfold waypoints
  split <;> rfl

theorem getLast?_waypoints :
    (settings.waypoints source target edge start finish).getLast? =
      some finish := by
  unfold waypoints
  split <;> rfl

end LayoutSettings

namespace Diagram

variable {settings : LayoutSettings α} {diagram : Diagram α} {edge : Edge}
  {path : Polyline α}

omit [Scalar α] in
theorem requireNode_eq_ok {id : NodeId} {node : DiagramNode α} :
    diagram.requireNode id = .ok node ↔ diagram.node? id = some node := by
  unfold requireNode
  cases diagram.node? id <;> simp

omit [Scalar α] in
theorem requireAnchor_eq_ok {node : DiagramNode α} {anchor : Anchor}
    {point : Point α} :
    requireAnchor node anchor = .ok point ↔ node.anchor? anchor = some point := by
  unfold requireAnchor
  cases node.anchor? anchor <;> simp

/-- The path of an edge leads over waypoints between its two anchors. -/
theorem exists_waypoints (isPath : diagram.pathOf settings edge = .ok path) :
    ∃ source target start finish,
      diagram.anchor? edge.source = some start ∧
      diagram.anchor? edge.target = some finish ∧
      path = .ofPoints (settings.waypoints source target edge start finish) := by
  obtain ⟨source, isSource, further⟩ := bind_eq_ok.mp isPath
  obtain ⟨target, isTarget, anchored⟩ := bind_eq_ok.mp further
  obtain ⟨start, isStart, left⟩ := bind_eq_ok.mp anchored
  obtain ⟨finish, isFinish, isPolyline⟩ := bind_eq_ok.mp left
  cases isPolyline
  refine ⟨source, target, start, finish, ?_, ?_, rfl⟩
  · rw [anchor?, requireNode_eq_ok.mp isSource]
    exact requireAnchor_eq_ok.mp isStart
  · rw [anchor?, requireNode_eq_ok.mp isTarget]
    exact requireAnchor_eq_ok.mp isFinish

/-- A path begins and ends within the tolerance of the two anchors of an edge. -/
structure Attaches (diagram : Diagram α) (edge : Edge) (path : Polyline α) :
    Prop where
  starts : ∃ start anchor, path.start? = some start ∧
    diagram.anchor? edge.source = some anchor ∧ start.near anchor = true
  finishes : ∃ finish anchor, path.finish? = some finish ∧
    diagram.anchor? edge.target = some anchor ∧ finish.near anchor = true

/-- The last waypoint may be left out of a path, but only where the path already
ends close to it; the first one never is. -/
theorem attaches_of_pathOf [LawfulNear α]
    (isPath : diagram.pathOf settings edge = .ok path)
    (finite : path.isFinite = true) : diagram.Attaches edge path := by
  obtain ⟨source, target, start, finish, isStart, isFinish, rfl⟩ :=
    exists_waypoints isPath
  have allFinite := List.all_eq_true.mp finite
  constructor
  · have first : (Polyline.ofPoints
        (settings.waypoints source target edge start finish)).start? = some start :=
      Polyline.start?_ofPoints.trans LayoutSettings.head?_waypoints
    refine ⟨start, start, first, isStart, Point.near_refl (allFinite start ?_)⟩
    exact List.mem_of_head? first
  · have isGoal : (settings.waypoints source target edge start finish).getLast? =
        some finish := LayoutSettings.getLast?_waypoints
    obtain ⟨last, isLast, close⟩ := Polyline.exists_finish?_ofPoints isGoal
    refine ⟨last, finish, isLast, isFinish, ?_⟩
    rcases close with rfl | isNear
    · exact Point.near_refl (allFinite last (List.mem_of_getLast? isLast))
    · exact isNear

theorem Attaches.isAttached (attaches : diagram.Attaches edge path) :
    isAttached path.start? (diagram.anchor? edge.source) = true ∧
      isAttached path.finish? (diagram.anchor? edge.target) = true := by
  obtain ⟨start, first, isStart, isFirst, nearFirst⟩ := attaches.starts
  obtain ⟨finish, last, isFinish, isLast, nearLast⟩ := attaches.finishes
  rw [isStart, isFirst, isFinish, isLast]
  exact ⟨nearFirst, nearLast⟩

/-! ## The check of a path -/

/-- Whatever is found at fault before a path is drawn, it is not the path. -/
theorem pathOf_ne_detached (source target : NodeId) (kind : ConnectorKind) :
    diagram.pathOf settings edge ≠ .error (.detached source target kind) := by
  have nodeFound : ∀ id, diagram.requireNode id ≠
      .error (.detached source target kind) := by
    intro id
    unfold requireNode
    split <;> simp
  have anchorFound : ∀ (node : DiagramNode α) anchor, requireAnchor node anchor ≠
      .error (.detached source target kind) := by
    intro node anchor
    unfold requireAnchor
    split <;> simp
  intro fails
  rcases bind_eq_error.mp fails with noSource | ⟨first, -, further⟩
  · exact nodeFound _ noSource
  rcases bind_eq_error.mp further with noTarget | ⟨second, -, anchored⟩
  · exact nodeFound _ noTarget
  rcases bind_eq_error.mp anchored with noStart | ⟨start, -, left⟩
  · exact anchorFound _ _ noStart
  rcases bind_eq_error.mp left with noFinish | ⟨finish, -, drawn⟩
  · exact anchorFound _ _ noFinish
  · cases drawn

/-- The check finds the ends of a path loose only after it has found all corners
finite. -/
theorem finite_of_detached {source target : NodeId} {kind : ConnectorKind}
    (fails : diagram.checkPath edge path = .error (.detached source target kind)) :
    path.isFinite = true ∧
      ¬ (isAttached path.start? (diagram.anchor? edge.source) = true ∧
        isAttached path.finish? (diagram.anchor? edge.target) = true) := by
  unfold checkPath at fails
  dsimp only at fails
  split at fails
  · cases fails
  · rename_i straight
    obtain ⟨finite, -⟩ : path.isFinite = true ∧ path.isOrthogonal = true := by
      simpa using straight
    split at fails
    · rename_i loose
      refine ⟨finite, fun ⟨starts, finishes⟩ => ?_⟩
      rw [starts, finishes] at loose
      cases loose
    · split at fails <;> cases fails

theorem connect_ne_detached [LawfulNear α] (source target : NodeId)
    (kind : ConnectorKind) :
    diagram.connect settings edge ≠ .error (.detached source target kind) := by
  intro fails
  rcases bind_eq_error.mp fails with noPath | ⟨path, isPath, checked⟩
  · exact pathOf_ne_detached source target kind noPath
  rcases bind_eq_error.mp checked with loose | ⟨-, -, passed⟩
  · obtain ⟨finite, notAttached⟩ := finite_of_detached loose
    exact notAttached (attaches_of_pathOf isPath finite).isAttached
  · cases passed

/-- No path is ever reported as detached, for any diagram and any distances: what
passes the test for finite corners along the axes is attached at both ends. -/
theorem route_attached (settings : LayoutSettings Float32)
    (diagram : Diagram Float32) :
    (∀ source target kind,
      diagram.route settings ≠ .error (.detached source target kind)) ∧
    ∀ edge path, diagram.pathOf settings edge = .ok path →
      path.isFinite = true → path.isOrthogonal = true →
        diagram.Attaches edge path := by
  constructor
  · intro source target kind fails
    rcases bind_eq_error.mp fails with notConnected | ⟨connectors, -, passed⟩
    · obtain ⟨edge, -, edgeFails⟩ := exists_of_mapM_eq_error notConnected
      exact connect_ne_detached source target kind edgeFails
    · cases passed
  · intro edge path isPath finite _
    exact attaches_of_pathOf isPath finite

/-- Two anchors so close to one another that the path between them is a point. -/
def closeAnchors : Diagram Float32 where
  root := "first"
  bounds := ⟨0, 0, 100, 100⟩
  nodes :=
    [⟨"first", .statement, "", ⟨0, 0, 100, 50⟩, none, [(.exit, ⟨50, 50⟩)], none, 0,
      true⟩,
    ⟨"second", .statement, "", ⟨0, 50, 100, 100⟩, none,
      [(.entry, ⟨50.0009765625, 50.0009765625⟩)], none, 0, true⟩]
  edges := [⟨⟨"first", .exit⟩, ⟨"second", .entry⟩, .sequential, none, true⟩]

theorem route_attached_closeAnchors :
    ∃ edge ∈ closeAnchors.edges, ∃ path,
      closeAnchors.pathOf .standard edge = .ok path ∧ path.isFinite = true ∧
        path.isOrthogonal = true ∧ path.points.length = 1 ∧
        closeAnchors.Attaches edge path := by
  refine ⟨_, List.mem_cons_self, ⟨[⟨50, 50⟩]⟩, ?_⟩
  have isPath : closeAnchors.pathOf .standard
      ⟨⟨"first", .exit⟩, ⟨"second", .entry⟩, .sequential, none, true⟩ =
        .ok ⟨[⟨50, 50⟩]⟩ := by
    decide +kernel
  have finite : (⟨[⟨50, 50⟩]⟩ : Polyline Float32).isFinite = true := by
    decide +kernel
  have straight : (⟨[⟨50, 50⟩]⟩ : Polyline Float32).isOrthogonal = true := by
    decide +kernel
  exact ⟨isPath, finite, straight, rfl,
    (route_attached .standard closeAnchors).2 _ _ isPath finite straight⟩

end Diagram

end Flowchart
