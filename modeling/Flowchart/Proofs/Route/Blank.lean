import Flowchart.Proofs.Flow.Blank
import Flowchart.Proofs.Layout.Blank
import Flowchart.Proofs.Layout.Drawn
import Flowchart.Route.Router

/-!
# Diagrams without texts

Layout and routing go the same way over a program that is left blank, to the
same fault or to the same diagram, but for the texts of its nodes and the
patterns beside connectors into arms.
-/

namespace Flowchart

variable {α : Type}

/-- The diagram without texts of nodes and patterns of arms. -/
def Diagram.blank (diagram : Diagram α) : Diagram α :=
  { diagram with
    nodes := diagram.nodes.map DiagramNode.blank
    edges := diagram.edges.map Edge.blank }

/-- The connector without the pattern of an arm. -/
def Connector.blank (connector : Connector α) : Connector α :=
  { connector with toEdge := connector.toEdge.blank }

/-- The diagram with its connectors, without texts of nodes and patterns of
arms. -/
def RoutedDiagram.blank (routed : RoutedDiagram α) : RoutedDiagram α :=
  { toDiagram := routed.toDiagram.blank
    connectors := routed.connectors.map Connector.blank }

namespace Diagram

/-! ## Reachability -/

theorem targets_blank (edges : List Edge) (id : NodeId) :
    Found.targets (edges.map Edge.blank) id = Found.targets edges id := by
  rw [Found.targets, List.filter_map, List.map_map]
  rfl

theorem follow_blank (edges : List Edge) (unseen pending : List NodeId) :
    follow (edges.map Edge.blank) unseen pending =
      follow edges unseen pending := by
  fun_induction follow edges unseen pending with
  | case1 unseen => rw [follow]
  | case2 unseen id rest isUnseen next ih =>
      have isTargets : next = Found.targets edges id := Found.attached_targets
      rw [isTargets] at ih
      rw [follow, if_pos isUnseen]
      change id :: follow _ _ (Found.targets (edges.map Edge.blank) id ++ rest) = _
      rw [targets_blank, ih]
      rfl
  | case3 unseen id rest seen ih => rw [follow, if_neg seen, ih]

theorem isFrameless_blank (nodes : List (DiagramNode α)) (id : NodeId) :
    isFrameless (nodes.map DiagramNode.blank) id = isFrameless nodes id := by
  rw [isFrameless, List.find?_map, Option.any_map]
  rfl

theorem withBlocks_blank (nodes : List (DiagramNode α)) (reached : List NodeId) :
    withBlocks (nodes.map DiagramNode.blank) reached =
      withBlocks nodes reached := by
  simp only [withBlocks, List.foldr_map, isFrameless_blank]
  rfl

theorem reachedFrom_blank (nodes : List (DiagramNode α)) (edges : List Edge)
    (starts : List NodeId) :
    reachedFrom (nodes.map DiagramNode.blank) (edges.map Edge.blank) starts =
      reachedFrom nodes edges starts := by
  simp only [reachedFrom, withBlocks_blank, follow_blank, List.map_map]
  rfl

theorem markReachable_blank (diagram : Diagram α) (starts : List NodeId) :
    diagram.blank.markReachable starts =
      (diagram.markReachable starts).blank := by
  simp only [markReachable, blank, reachedFrom_blank, List.map_map]
  rfl

/-! ## Assembly -/

theorem checkEndpoint_blank (nodes : List (DiagramNode α)) (endpoint : Endpoint) :
    checkEndpoint (nodes.map DiagramNode.blank) endpoint =
      checkEndpoint nodes endpoint := by
  rw [checkEndpoint, checkEndpoint,
    Keyed.find?_map DiagramNode.id_blank]
  cases Keyed.find? DiagramNode.id nodes endpoint.node <;> rfl

theorem checkEdges_blank (nodes : List (DiagramNode α)) (edges : List Edge) :
    ((edges.map Edge.blank).forM fun edge => do
        checkEndpoint (nodes.map DiagramNode.blank) edge.source
        checkEndpoint (nodes.map DiagramNode.blank) edge.target) =
      (edges.forM fun edge => do
        checkEndpoint nodes edge.source
        checkEndpoint nodes edge.target) := by
  simp only [checkEndpoint_blank]
  induction edges with
  | nil => rfl
  | cons edge rest ih =>
      exact congrArg (fun checked => (do
        checkEndpoint nodes edge.source
        checkEndpoint nodes edge.target) >>= fun _ => checked) ih

variable [Scalar α]

/-- An arrangement without texts gives the diagram without texts. -/
theorem ofArrangement_blank (arrangement : Arrangement α) :
    ofArrangement (arrangement.blank Frame.blank) =
      (ofArrangement arrangement).map blank := by
  have sameFlow : ((arrangement.blank Frame.blank).map Frame.id).flow =
      ((arrangement.map Frame.id).flow.1.map Edge.blank,
        (arrangement.map Frame.id).flow.2) := by
    rw [← Program.flow_blank, Program.map_blank, Program.blank_map]
    rfl
  rw [ofArrangement, ofArrangement, Arrangement.place_blank,
    Keyed.ofList_map DiagramNode.id_blank, sameFlow,
    Arrangement.overlap?_blank, Program.label_blank]
  dsimp only
  rw [checkEdges_blank]
  generalize (List.forM _ _ : Except Fault Unit) = checked
  cases checked with
  | error fault => rfl
  | ok _ =>
      cases arrangement.overlap? .origin with
      | some pair => rfl
      | none =>
          let diagram : Diagram α :=
            { root := arrangement.label.id
              bounds := .ofTopLeft .origin arrangement.label.size
              nodes := Keyed.ofList DiagramNode.id
                (arrangement.place .origin none 0)
              edges := (arrangement.map Frame.id).flow.1 }
          exact congrArg Except.ok (diagram.markReachable_blank _)

end Diagram

/-- A program without what is only written is laid out alike. -/
theorem Program.diagram_blank [Scalar α] (settings : LayoutSettings α)
    (program : Program (Label α)) :
    (program.blank Label.blank).diagram settings =
      (program.diagram settings).map Diagram.blank := by
  rw [diagram, diagram, arrange_blank]
  cases program.arrange settings with
  | error fault => rfl
  | ok arrangement => exact Diagram.ofArrangement_blank arrangement

/-! ## Routing -/

namespace Diagram

theorem node?_blank (diagram : Diagram α) (id : NodeId) :
    diagram.blank.node? id = (diagram.node? id).map DiagramNode.blank :=
  List.find?_map ..

theorem requireNode_blank (diagram : Diagram α) (id : NodeId) :
    diagram.blank.requireNode id =
      (diagram.requireNode id).map DiagramNode.blank := by
  rw [requireNode, requireNode, node?_blank]
  cases diagram.node? id <;> rfl

theorem anchor?_blank (diagram : Diagram α) (endpoint : Endpoint) :
    diagram.blank.anchor? endpoint = diagram.anchor? endpoint := by
  rw [anchor?, anchor?, node?_blank]
  cases diagram.node? endpoint.node <;> rfl

variable [Scalar α] (settings : LayoutSettings α)

theorem pathOf_blank (diagram : Diagram α) (edge : Edge) :
    diagram.blank.pathOf settings edge.blank = diagram.pathOf settings edge := by
  unfold pathOf
  rw [requireNode_blank, requireNode_blank]
  change ((diagram.requireNode edge.source.node).map DiagramNode.blank >>= _) = _
  cases diagram.requireNode edge.source.node with
  | error fault => rfl
  | ok source =>
      change ((diagram.requireNode edge.target.node).map DiagramNode.blank >>= _) =
        (diagram.requireNode edge.target.node >>= _)
      cases diagram.requireNode edge.target.node <;> rfl

theorem crossed?_blank (diagram : Diagram α) (edge : Edge) (path : Polyline α) :
    diagram.blank.crossed? edge.blank path = diagram.crossed? edge path := by
  rw [crossed?, crossed?, blank, List.findSome?_map]
  rfl

theorem checkPath_blank (diagram : Diagram α) (edge : Edge) (path : Polyline α) :
    diagram.blank.checkPath edge.blank path = diagram.checkPath edge path := by
  rw [checkPath, checkPath, crossed?_blank, anchor?_blank, anchor?_blank]
  rfl

theorem connect_blank (diagram : Diagram α) (edge : Edge) :
    diagram.blank.connect settings edge.blank =
      (diagram.connect settings edge).map Connector.blank := by
  rw [connect, connect, pathOf_blank]
  cases diagram.pathOf settings edge with
  | error fault => rfl
  | ok path =>
      change (diagram.blank.checkPath edge.blank path >>= _) =
        Except.map _ (diagram.checkPath edge path >>= _)
      rw [checkPath_blank]
      cases diagram.checkPath edge path <;> rfl

/-- Connectors run the same way between nodes without texts. -/
theorem route_blank (diagram : Diagram α) :
    diagram.blank.route settings =
      (diagram.route settings).map RoutedDiagram.blank := by
  have connectors : ∀ edges : List Edge,
      (edges.map Edge.blank).mapM (diagram.blank.connect settings) =
        (edges.mapM (diagram.connect settings)).map (List.map Connector.blank) := by
    intro edges
    induction edges with
    | nil => rfl
    | cons edge rest ih =>
        rw [List.map_cons, List.mapM_cons, List.mapM_cons, connect_blank, ih]
        cases diagram.connect settings edge with
        | error fault => rfl
        | ok connector =>
            cases rest.mapM (diagram.connect settings) <;> rfl
  rw [route, route]
  change ((diagram.edges.map Edge.blank).mapM _ >>= _) = _
  rw [connectors]
  cases diagram.edges.mapM (diagram.connect settings) <;> rfl

end Diagram

end Flowchart
