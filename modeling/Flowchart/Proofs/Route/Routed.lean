import Flowchart.Proofs.Flow.Reachable
import Flowchart.Proofs.Results
import Flowchart.Proofs.Route.Attached
import Flowchart.Proofs.Route.Declarations

/-!
# Routing never fails

In exact arithmetic every edge of a laid out program has a clear way, so routing
finds a path for it that the check passes.  The path even keeps clear of the two
nodes that it connects, which the check does not ask for.
-/

namespace Flowchart

open Scalar

/-! ## The path of one edge -/

theorem Polyline.isFinite_exact (line : Polyline Rat) : line.isFinite = true :=
  List.all_eq_true.mpr fun _ _ => rfl

/-- A connector made of horizontal and vertical segments, from the one of its
anchors to the other and through no figure at all. -/
structure Diagram.Carries (diagram : Diagram Rat) (connector : Connector Rat) :
    Prop where
  orthogonal : connector.path.isOrthogonal = true
  starts : ∃ start anchor, connector.path.start? = some start ∧
    diagram.anchor? connector.source = some anchor ∧ start.near anchor = true
  finishes : ∃ finish anchor, connector.path.finish? = some finish ∧
    diagram.anchor? connector.target = some anchor ∧ finish.near anchor = true
  clear : ∀ node ∈ diagram.nodes, ∀ figure, node.figure = some figure →
    ∀ segment ∈ connector.path.segments, segment.crosses figure = false

namespace Diagram

variable {settings : LayoutSettings Rat} {diagram : Diagram Rat} {edge : Edge}
  {bounds : Rect Rat} {source target : DiagramNode Rat} {start finish : Point Rat}

theorem node?_eq_some (distinct : (diagram.nodes.map DiagramNode.id).Nodup)
    {node : DiagramNode Rat} (nodeIn : node ∈ diagram.nodes) :
    diagram.node? node.id = some node :=
  Keyed.find?_eq_some distinct nodeIn

/-- A carried connector passes the check of its path. -/
theorem Carries.checkPath {connector : Connector Rat}
    (carries : diagram.Carries connector) :
    diagram.checkPath connector.toEdge connector.path = .ok () := by
  obtain ⟨start, first, isStart, isFirst, nearFirst⟩ := carries.starts
  obtain ⟨finish, last, isFinish, isLast, nearLast⟩ := carries.finishes
  have noneCrossed : diagram.crossed? connector.toEdge connector.path = none := by
    rw [crossed?, List.findSome?_eq_none_iff]
    intro node nodeIn
    split
    · rfl
    · cases isFigure : node.figure with
      | none => rfl
      | some figure =>
          have clear := carries.clear node nodeIn figure isFigure
          simpa using clear
  simp [Diagram.checkPath, connector.path.isFinite_exact, carries.orthogonal,
    isAttached, isStart, isFirst, nearFirst, isFinish, isLast, nearLast,
    noneCrossed]

/-- Where its two anchors are found, an edge gets the path between them. -/
theorem pathOf_found (distinct : (diagram.nodes.map DiagramNode.id).Nodup)
    (sourceIn : source ∈ diagram.nodes) (isSource : source.id = edge.source.node)
    (targetIn : target ∈ diagram.nodes) (isTarget : target.id = edge.target.node)
    (isStart : source.anchor? edge.source.anchor = some start)
    (isFinish : target.anchor? edge.target.anchor = some finish) :
    diagram.pathOf settings edge =
      .ok (.ofPoints (settings.waypoints source target edge start finish)) := by
  have foundSource : diagram.requireNode edge.source.node = .ok source := by
    rw [requireNode, ← isSource, node?_eq_some distinct sourceIn]
  have foundTarget : diagram.requireNode edge.target.node = .ok target := by
    rw [requireNode, ← isTarget, node?_eq_some distinct targetIn]
  have foundStart : requireAnchor source edge.source.anchor = .ok start := by
    rw [requireAnchor, isStart]
  have foundFinish : requireAnchor target edge.target.anchor = .ok finish := by
    rw [requireAnchor, isFinish]
  exact bind_eq_ok.mpr ⟨source, foundSource, bind_eq_ok.mpr ⟨target, foundTarget,
    bind_eq_ok.mpr ⟨start, foundStart,
      bind_eq_ok.mpr ⟨finish, foundFinish, rfl⟩⟩⟩⟩

section Way

variable (distinct : (diagram.nodes.map DiagramNode.id).Nodup)
  (way : HasWay settings diagram.nodes bounds edge source target start finish)

include distinct way

theorem pathOf_eq : diagram.pathOf settings edge =
    .ok (.ofPoints (settings.waypoints source target edge start finish)) :=
  pathOf_found distinct way.sourceIn way.isSource way.targetIn way.isTarget
    way.isStart way.isFinish

theorem carries_of_way
    (figures : Figures diagram.nodes fun figure =>
      figure.minX < figure.maxX ∧ figure.minY < figure.maxY) :
    diagram.Carries ⟨edge,
      .ofPoints (settings.waypoints source target edge start finish)⟩ where
  orthogonal := List.all_eq_true.mpr fun segment segmentIn =>
    (way.keeps.follows segment segmentIn).isOrthogonal
  starts := by
    refine ⟨start, start, ?_, ?_, ?_⟩
    · exact way.keeps.starts.trans LayoutSettings.head?_waypoints
    · rw [anchor?, ← way.isSource, node?_eq_some distinct way.sourceIn]
      exact way.isStart
    · simp [Point.near]
  finishes := by
    obtain ⟨last, goal, isLast, isGoal, close⟩ := way.keeps.finishes
    rw [LayoutSettings.getLast?_waypoints] at isGoal
    obtain rfl := Option.some.inj isGoal
    refine ⟨last, finish, isLast, ?_, close⟩
    rw [anchor?, ← way.isTarget, node?_eq_some distinct way.targetIn]
    exact way.isFinish
  clear := by
    intro node nodeIn figure isFigure segment segmentIn
    obtain ⟨wide, high⟩ := figures node nodeIn figure isFigure
    exact (way.keeps.follows segment segmentIn).not_crosses wide high
      (way.clear node nodeIn figure isFigure)

end Way

/-! ## The paths of all edges -/

section Edges

variable (distinct : (diagram.nodes.map DiagramNode.id).Nodup)
  (figures : Figures diagram.nodes fun figure =>
    figure.minX < figure.maxX ∧ figure.minY < figure.maxY)

include distinct figures

theorem exists_connect (isClear : IsClear settings diagram.nodes bounds edge) :
    ∃ connector, diagram.connect settings edge = .ok connector ∧
      connector.toEdge = edge ∧ diagram.Carries connector := by
  obtain ⟨source, target, start, finish, way⟩ := isClear
  have carries := carries_of_way distinct way figures
  refine ⟨_, ?_, rfl, carries⟩
  have isChecked : diagram.checkPath edge
      (.ofPoints (settings.waypoints source target edge start finish)) =
        .ok () := carries.checkPath
  exact bind_eq_ok.mpr ⟨_, pathOf_eq distinct way,
    bind_eq_ok.mpr ⟨_, isChecked, rfl⟩⟩

/-- Where every edge has a clear way, every edge gets a connector. -/
theorem exists_route
    (clear : ∀ edge ∈ diagram.edges,
      IsClear settings diagram.nodes bounds edge) :
    ∃ routed, diagram.route settings = .ok routed ∧
      routed.toDiagram = diagram ∧
      routed.connectors.map Connector.toEdge = diagram.edges ∧
      ∀ connector ∈ routed.connectors, diagram.Carries connector := by
  obtain ⟨connectors, isRouted, areEdges, allCarried⟩ :=
    exists_mapM_eq_ok Connector.toEdge fun edge edgeIn =>
      exists_connect distinct figures (clear edge edgeIn)
  exact ⟨⟨diagram, connectors⟩, bind_eq_ok.mpr ⟨connectors, isRouted, rfl⟩, rfl,
    areEdges, allCarried⟩

end Edges

end Diagram

/-! ## Every tree -/

/-- Marking what flow reaches moves nothing. -/
theorem IsClear.mark {settings : LayoutSettings Rat}
    {nodes : List (DiagramNode Rat)} {bounds : Rect Rat} {edge : Edge}
    (isClear : IsClear settings nodes bounds edge)
    (reached : List NodeId) :
    IsClear settings
      (nodes.map fun node => { node with reachable := decide (node.id ∈ reached) })
      bounds { edge with reachable := decide (edge.source.node ∈ reached) } := by
  obtain ⟨source, target, start, finish, way⟩ := isClear
  refine ⟨_, _, start, finish, List.mem_map_of_mem way.sourceIn,
    List.mem_map_of_mem way.targetIn, way.isSource, way.isTarget, way.isStart,
    way.isFinish, way.keeps, way.inside, ?_⟩
  intro node nodeIn figure isFigure
  obtain ⟨original, originalIn, rfl⟩ := List.mem_map.mp nodeIn
  exact way.clear original originalIn figure isFigure

/-- Every edge of the diagram of a program gets a connector. -/
theorem Program.exists_route {settings : LayoutSettings Rat}
    {program : Program (Label Rat)} (accepted : settings.Accepted)
    (outer : program.Outer) (distinct : program.ids.Nodup) {diagram : Diagram Rat}
    (isDiagram : diagram =
      (Diagram.unmarked (program.framed settings)).markReachable
        (program.map Label.id).flow.2) :
    ∃ routed, diagram.route settings = .ok routed ∧
      routed.toDiagram = diagram ∧
      routed.connectors.map Connector.toEdge = diagram.edges ∧
      ∀ connector ∈ routed.connectors, diagram.Carries connector := by
  have ids_eq : diagram.nodes.map DiagramNode.id = program.ids := by
    rw [isDiagram, Diagram.ids_markReachable, ids_nodes]
  have figures : Figures diagram.nodes fun figure =>
      figure.minX < figure.maxX ∧ figure.minY < figure.maxY := by
    intro node nodeIn figure isFigure
    rw [isDiagram] at nodeIn
    obtain ⟨original, originalIn, rfl⟩ := List.mem_map.mp nodeIn
    obtain ⟨wide, high, -⟩ := Arrangement.figures_place
      (fits_framed accepted program) .origin none 0 original originalIn figure
      isFigure
    exact ⟨wide, high⟩
  have clear : ∀ edge ∈ diagram.edges, Flowchart.IsClear settings diagram.nodes
      ((program.framed settings).label.bounds .origin) edge := by
    intro edge edgeIn
    rw [isDiagram] at edgeIn ⊢
    obtain ⟨original, originalIn, rfl⟩ := List.mem_map.mp edgeIn
    rw [Diagram.unmarked, map_framed] at originalIn
    exact (outer.isClear accepted false .origin none 0 original originalIn).mark _
  exact Diagram.exists_route (by rwa [ids_eq]) figures clear

namespace Tree

variable {settings : LayoutSettings Rat} {tree : Tree Rat}

/-- Layout succeeds for every tree that passes validation, and routing succeeds
for the diagram: it gives one connector for each edge, in the order of the edges,
from anchor to anchor and through no figure. -/
theorem exists_routed (settingsValid : settings.validate = .ok ())
    (treeValid : tree.validate settings.maxDepth = .ok ()) :
    ∃ diagram routed,
      tree.layout settings = .ok diagram ∧
      diagram.route settings = .ok routed ∧
      routed.toDiagram = diagram ∧
      routed.connectors.map Connector.toEdge = diagram.edges ∧
      ∀ connector ∈ routed.connectors, diagram.Carries connector := by
  have accepted := LayoutSettings.validate_accepted settingsValid
  obtain ⟨located, stores⟩ := exists_stores treeValid
  have outer : located.written.Outer := stores.outer.map Prod.snd
  obtain ⟨routed, isRouted⟩ :=
    Program.exists_route accepted outer stores.ids_nodup rfl
  exact ⟨_, routed, layout_exact accepted treeValid stores, isRouted⟩

end Tree

/-- A program with all kinds of edges, in which some branches are left early. -/
def everyConstruct : Program NodeId :=
  .block "root"
    [.container "function" .function
      (.block "body"
        [.loop "while" .whileHolds
          (.decision "if" (.statement "then" .expression) none),
        .decision "either"
          (.result "early")
          (some (.loop "for" .forEach (.block "empty" []))),
        .selection "match"
          [("first", .statement "arm" .assignment), ("second", .result "late")],
        .statement "last" .expression]),
    .container "service" .service
      (.block "handlers" [.statement "one" .expression, .typeDefinition "type"])]

theorem exists_routed_everyConstruct :
    (LayoutSettings.standard : LayoutSettings Rat).validate = .ok () ∧
      everyConstruct.plainTree.validate
        (LayoutSettings.standard : LayoutSettings Rat).maxDepth = .ok () ∧
      ∃ diagram routed,
        everyConstruct.plainTree.layout .standard = .ok diagram ∧
        diagram.route .standard = .ok routed ∧
        routed.toDiagram = diagram ∧
        routed.connectors.map Connector.toEdge = diagram.edges ∧
        ∀ connector ∈ routed.connectors, diagram.Carries connector := by
  have settingsValid :
      (LayoutSettings.standard : LayoutSettings Rat).validate = .ok () := by
    cbv
  have treeValid : everyConstruct.plainTree.validate
      (LayoutSettings.standard : LayoutSettings Rat).maxDepth = .ok () := by
    cbv
  exact ⟨settingsValid, treeValid, Tree.exists_routed settingsValid treeValid⟩

end Flowchart
