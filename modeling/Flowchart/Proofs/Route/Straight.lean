import Flowchart.Proofs.Route.Rigid
import Flowchart.Proofs.Route.Spines

/-!
# Straight connectors

In exact arithmetic flow that leads on is drawn straight: the members of a block
have their entries one below the other, and the connector from a construct to the
next one is a single segment down, as long as the gap between them.
-/

namespace Flowchart

open Scalar

/-! ## Paths -/

/-- Where the lane and the column are on the line of the start and the turn is
halfway, nothing is left of a staircase but its two ends.  Were the gap within the
tolerance, the start alone would be. -/
theorem Polyline.points_stairs_straight {x y gap : Rat}
    (wide : (tolerance : Rat) < gap) :
    (ofPoints (stairs x y x ((y + (y + gap)) / 2) x (y + gap))).points =
      [⟨x, y⟩, ⟨x, y + gap⟩] := by
  rw [tolerance_exact] at wide
  have far : near y (y + gap) = false := by
    rw [Bool.eq_false_iff, Ne, near_iff]
    rintro ⟨-, close⟩
    linarith
  have halfway : near ((y + (y + gap)) / 2) (y + gap) =
      near y ((y + (y + gap)) / 2) := by
    rw [Bool.eq_iff_iff, near_iff, near_iff]
    constructor <;> rintro ⟨-, close⟩ <;> constructor <;> linarith
  cases flat : near y ((y + (y + gap)) / 2) with
  | true => simp [ofPoints, extend, Point.near, flat, far]
  | false => simp [ofPoints, extend, Point.near, collinear, flat, far, halfway]

theorem Edge.LeadsOn.not_lateral {edge : Edge} (leadsOn : edge.LeadsOn) :
    edge.kind.isLateral = false := by
  obtain ⟨-, notFalse, -, notOut⟩ := leadsOn
  cases kind : edge.kind <;> simp_all [ConnectorKind.isLateral]

/-- Flow that leads on is drawn straight. -/
structure RoutedDiagram.FlowsStraight (gap : Rat) (diagram : RoutedDiagram Rat) :
    Prop where
  /-- The members of a block have their entries below that of the block. -/
  aligned : ∀ block ∈ diagram.nodes, block.tag = .block →
    ∃ own, block.anchor? .entry = some own ∧
      ∀ member ∈ diagram.children block.id, ∀ place,
        member.anchor? .entry = some place → place.x = own.x
  /-- A connector that leads on is one segment down, from anchor to anchor. -/
  straight : ∀ connector ∈ diagram.connectors, connector.LeadsOn →
    ∃ start, diagram.anchor? connector.source = some start ∧
      diagram.anchor? connector.target = some ⟨start.x, start.y + gap⟩ ∧
      connector.path.points = [start, ⟨start.x, start.y + gap⟩]

namespace Diagram

variable {settings : LayoutSettings Rat} {diagram : Diagram Rat} {edge : Edge}

theorem anchor?_of_liesAt (distinct : (diagram.nodes.map DiagramNode.id).Nodup)
    {endpoint : Endpoint} {point : Point Rat}
    (liesAt : endpoint.LiesAt diagram.nodes point) :
    diagram.anchor? endpoint = some point := by
  obtain ⟨node, nodeIn, isNode, isPoint⟩ := liesAt
  rw [anchor?, ← isNode, node?_eq_some distinct nodeIn]
  exact isPoint

/-- The path of an edge that drops by more than the tolerance is one segment. -/
theorem points_of_drops (distinct : (diagram.nodes.map DiagramNode.id).Nodup)
    (wide : (tolerance : Rat) < settings.statementSpacing) {path : Polyline Rat}
    (isPath : diagram.pathOf settings edge = .ok path) (leadsOn : edge.LeadsOn)
    (drops : edge.Drops settings.statementSpacing diagram.nodes) :
    ∃ start, diagram.anchor? edge.source = some start ∧
      diagram.anchor? edge.target =
        some ⟨start.x, start.y + settings.statementSpacing⟩ ∧
      path.points = [start, ⟨start.x, start.y + settings.statementSpacing⟩] := by
  obtain ⟨start, fromStart, toFinish⟩ := drops
  refine ⟨start, anchor?_of_liesAt distinct fromStart,
    anchor?_of_liesAt distinct toFinish, ?_⟩
  obtain ⟨source, sourceIn, isSource, isStart⟩ := fromStart
  obtain ⟨target, targetIn, isTarget, isFinish⟩ := toFinish
  rw [pathOf_found distinct sourceIn isSource targetIn isTarget isStart isFinish,
    LayoutSettings.waypoints_straight leadsOn.not_lateral leadsOn.enters] at isPath
  rw [← Except.ok.inj isPath]
  exact Polyline.points_stairs_straight wide

end Diagram

/-! ## Every tree -/

/-- Marking what flow reaches moves no end of an edge. -/
theorem Edge.Drops.mark {gap : Rat} {nodes : List (DiagramNode Rat)} {edge : Edge}
    (drops : edge.Drops gap nodes) (reached : List NodeId) (reachable : Bool) :
    Edge.Drops gap
      (nodes.map fun node => { node with reachable := decide (node.id ∈ reached) })
      { edge with reachable } := by
  obtain ⟨start, ⟨source, sourceIn, isSource⟩, ⟨target, targetIn, isTarget⟩⟩ := drops
  exact ⟨start, ⟨_, List.mem_map_of_mem sourceIn, isSource⟩,
    ⟨_, List.mem_map_of_mem targetIn, isTarget⟩⟩

namespace Program

variable {settings : LayoutSettings Rat} {program : Program (Label Rat)}

/-- Members that flow can enter are entered on the spine of their block. -/
theorem aligned_unmarked (distinct : program.ids.Nodup) {block : DiagramNode Rat}
    (blockIn : block ∈ (Diagram.unmarked (program.framed settings)).nodes)
    (isBlock : block.tag = .block) :
    ∃ own, block.anchor? .entry = some own ∧
      ∀ member ∈ (Diagram.unmarked (program.framed settings)).children block.id,
        ∀ place, member.anchor? .entry = some place → place.x = own.x := by
  obtain ⟨inner, -, corner, outer, level, rfl, children_eq⟩ :=
    Diagram.exists_shownAt distinct blockIn
  rw [shownAt, Arrangement.nodeAt, tag_framed] at isBlock
  obtain ⟨label, members, rfl⟩ := exists_block_of_tag isBlock
  have atTop : ((block label members).framed settings).label.anchors.lookup .entry =
      some ⟨((block label members).framed settings).label.spine, 0⟩ := by
    cases members <;> rfl
  refine ⟨_, Arrangement.anchor?_nodeAt atTop, ?_⟩
  rw [children_eq]
  intro node nodeIn place isPlace
  obtain ⟨index, shown, isShown, rfl⟩ := Arrangement.mem_childNodes.mp nodeIn
  rw [children_framed, children, List.getElem?_map, Option.map_eq_some_iff] at isShown
  obtain ⟨member, isMember, rfl⟩ := isShown
  rw [DiagramNode.anchor?, Arrangement.nodeAt, Arrangement.lookup_moved,
    Option.map_eq_some_iff] at isPlace
  obtain ⟨top, isTop, rfl⟩ := isPlace
  rw [lookup_entry isTop, ← line_member isMember]
  exact add_comm _ _

/-- Edges between the nodes of a program that lead on lead straight down. -/
theorem drops_unmarked (accepted : settings.Accepted) (outer : program.Outer)
    {edge : Edge} (edgeIn : edge ∈ (Diagram.unmarked (program.framed settings)).edges)
    (leadsOn : edge.LeadsOn) :
    edge.Drops settings.statementSpacing
      (Diagram.unmarked (program.framed settings)).nodes := by
  rw [Diagram.unmarked, map_framed] at edgeIn
  have flowing := (outer.map Label.id).flowsInside false
  exact (arises_of_mem_controlFlow (flowing.mem_iff.mp edgeIn)).drops accepted outer
    leadsOn .origin none 0

end Program

/-- Every program is drawn with straight flow, where gaps exceed the tolerance. -/
theorem RoutedDiagram.flowsStraight {settings : LayoutSettings Rat}
    {program : Program (Label Rat)} (accepted : settings.Accepted)
    (wide : (tolerance : Rat) < settings.statementSpacing) (outer : program.Outer)
    (distinct : program.ids.Nodup) {starts : List NodeId} {routed : RoutedDiagram Rat}
    (isDiagram : routed.toDiagram =
      (Diagram.unmarked (program.framed settings)).markReachable starts)
    (areEdges : routed.connectors.map Connector.toEdge = routed.edges)
    (isRouted : routed.toDiagram.route settings = .ok routed) :
    routed.FlowsStraight settings.statementSpacing where
  aligned := by
    rw [isDiagram]
    intro block blockIn isBlock
    obtain ⟨plain, plainIn, rfl⟩ := List.mem_map.mp blockIn
    obtain ⟨own, isOwn, aligned⟩ := Program.aligned_unmarked distinct plainIn isBlock
    refine ⟨own, isOwn, fun member memberIn => ?_⟩
    rw [Diagram.children_markReachable] at memberIn
    obtain ⟨original, originalIn, rfl⟩ := List.mem_map.mp memberIn
    exact aligned original originalIn
  straight := by
    intro connector connectorIn leadsOn
    have ids_nodup : (routed.nodes.map DiagramNode.id).Nodup := by
      rwa [isDiagram, Diagram.ids_markReachable, Program.ids_nodes]
    have edgeIn : connector.toEdge ∈ routed.edges := by
      rw [← areEdges]
      exact List.mem_map_of_mem connectorIn
    refine Diagram.points_of_drops ids_nodup wide
      (Diagram.pathOf_of_route isRouted connectorIn) leadsOn ?_
    rw [isDiagram] at edgeIn ⊢
    obtain ⟨plain, plainIn, isEdge⟩ := List.mem_map.mp edgeIn
    rw [← isEdge] at leadsOn ⊢
    have plainLeads : plain.LeadsOn :=
      ⟨leadsOn.enters, leadsOn.notFalse, leadsOn.notArm, leadsOn.notOut⟩
    exact (Program.drops_unmarked accepted outer plainIn plainLeads).mark _ _

/-- Every tree that passes validation is drawn with straight flow. -/
theorem Tree.routes_straight {settings : LayoutSettings Rat} {tree : Tree Rat}
    (usable : settings.validate = .ok ())
    (wide : (tolerance : Rat) < settings.statementSpacing)
    (valid : tree.validate settings.maxDepth = .ok ()) :
    ∃ diagram routed, tree.layout settings = .ok diagram ∧
      diagram.route settings = .ok routed ∧ routed.toDiagram = diagram ∧
      routed.connectors.map Connector.toEdge = diagram.edges ∧
      routed.FlowsStraight settings.statementSpacing := by
  have accepted := LayoutSettings.validate_accepted usable
  obtain ⟨located, stores⟩ := exists_stores valid
  have outer : located.written.Outer := stores.outer.map Prod.snd
  obtain ⟨routed, isRouted, sameDiagram, areEdges, -⟩ :=
    Program.exists_route accepted outer stores.ids_nodup rfl
  refine ⟨_, routed, layout_exact accepted valid stores, isRouted, sameDiagram,
    areEdges, ?_⟩
  rw [← sameDiagram] at isRouted areEdges
  exact RoutedDiagram.flowsStraight accepted wide outer stores.ids_nodup sameDiagram
    areEdges isRouted

/-- A function with nested blocks, in which flow goes on from the end of a block and
out of a loop. -/
def nestedBlocks : Program NodeId :=
  .container "function" .function (.block "body" [
    .block "inner" [
      .statement "first" .assignment,
      .decision "if" (.block "then" [
        .loop "while" .whileHolds (.statement "step" .compoundAssignment)]) none],
    .selection "match"
      [("one", .statement "arm" .expression), ("two", .result "late")],
    .result "last"])

theorem Tree.routes_straight_nestedBlocks :
    (LayoutSettings.standard : LayoutSettings Rat).validate = .ok () ∧
      (tolerance : Rat) <
        (LayoutSettings.standard : LayoutSettings Rat).statementSpacing ∧
      nestedBlocks.plainTree.validate
        (LayoutSettings.standard : LayoutSettings Rat).maxDepth = .ok () ∧
      ∃ diagram routed,
        nestedBlocks.plainTree.layout .standard = .ok diagram ∧
        diagram.route .standard = .ok routed ∧ routed.toDiagram = diagram ∧
        routed.connectors.map Connector.toEdge = diagram.edges ∧
        routed.FlowsStraight
          (LayoutSettings.standard : LayoutSettings Rat).statementSpacing := by
  have usable : (LayoutSettings.standard : LayoutSettings Rat).validate =
      .ok () := by
    decide +kernel
  have wide : (tolerance : Rat) <
      (LayoutSettings.standard : LayoutSettings Rat).statementSpacing := by
    decide +kernel
  have valid : nestedBlocks.plainTree.validate
      (LayoutSettings.standard : LayoutSettings Rat).maxDepth = .ok () := by
    cbv
  exact ⟨usable, wide, valid, routes_straight usable wide valid⟩

end Flowchart
