import Flowchart.Geometry.Polyline
import Flowchart.Layout.Engine

/-!
Paths for the edges of a diagram.  A path has horizontal and vertical segments
only; its vertical runs keep to spines and to the lanes beside decisions and
loops, its horizontal runs to the gaps between rows.
-/

namespace Flowchart

open Scalar

/-- An edge with its path. -/
structure Connector (α : Type) extends Edge where
  path : Polyline α
deriving DecidableEq, Repr

structure RoutedDiagram (α : Type) extends Diagram α where
  connectors : List (Connector α)
deriving DecidableEq, Repr

namespace RoutedDiagram

/-- The first connector from one node to another. -/
def connectorBetween? {α : Type} (diagram : RoutedDiagram α)
    (source target : NodeId) : Option (Connector α) :=
  diagram.connectors.find? fun connector =>
    connector.source.node = source && connector.target.node = target

end RoutedDiagram

namespace LayoutSettings

variable {α : Type} [Scalar α] (settings : LayoutSettings α)

/-- Where the first vertical run of a path lies: in a lane of the source, or
straight below the point it leaves from. -/
def descent (source : DiagramNode α) (edge : Edge) (start : Point α) : α :=
  match edge.kind, edge.target.anchor with
  | .loopExit, _ => source.bounds.maxX - half settings.loopClearance
  | .branchFalse, .merge => source.bounds.maxX - half settings.branchGap
  | _, _ => start.x

/-- The waypoints of a path between two points of two nodes. -/
def waypoints (source target : DiagramNode α) (edge : Edge)
    (start finish : Point α) : List (Point α) :=
  let lane := settings.descent source edge start
  match edge.target.anchor, edge.kind with
  | .loopBack, _ =>
      let turn := target.bounds.maxY - half settings.statementSpacing
      let returnLane := target.bounds.minX + half settings.loopClearance
      [start, ⟨lane, start.y⟩, ⟨lane, turn⟩, ⟨returnLane, turn⟩,
        ⟨returnLane, finish.y⟩, finish]
  | .merge, _ | .exit, _ =>
      [start, ⟨lane, start.y⟩, ⟨lane, finish.y⟩, finish]
  | _, .branchFalse => [start, ⟨finish.x, start.y⟩, finish]
  | _, kind =>
      let turn :=
        if kind.isLateral then half (source.bounds.maxY + finish.y)
        else half (start.y + finish.y)
      [start, ⟨lane, start.y⟩, ⟨lane, turn⟩, ⟨finish.x, turn⟩, finish]

end LayoutSettings

namespace Diagram

variable {α : Type} [Scalar α]

def requireNode (diagram : Diagram α) (id : NodeId) :
    Except Fault (DiagramNode α) :=
  match diagram.node? id with
  | some node => .ok node
  | none => .error (.unknownNode id)

def requireAnchor (node : DiagramNode α) (anchor : Anchor) :
    Except Fault (Point α) :=
  match node.anchor? anchor with
  | some point => .ok point
  | none => .error (.unknownAnchor node.id anchor)

/-- The path of an edge. -/
def pathOf (settings : LayoutSettings α) (diagram : Diagram α) (edge : Edge) :
    Except Fault (Polyline α) := do
  let source ← diagram.requireNode edge.source.node
  let target ← diagram.requireNode edge.target.node
  let start ← requireAnchor source edge.source.anchor
  let finish ← requireAnchor target edge.target.anchor
  return .ofPoints (settings.waypoints source target edge start finish)

/-- Whether an end of a path lies at a point. -/
def isAttached (finish expected : Option (Point α)) : Bool :=
  match finish, expected with
  | some finish, some expected => finish.near expected
  | _, _ => false

/-- The first node apart from both ends whose figure a path passes through. -/
def crossed? (diagram : Diagram α) (edge : Edge) (path : Polyline α) :
    Option NodeId :=
  diagram.nodes.findSome? fun node =>
    if node.id = edge.source.node || node.id = edge.target.node then none
    else
      node.figure.bind fun figure =>
        if path.segments.any fun segment => segment.crosses figure then
          some node.id
        else none

/-- Passes a path that is orthogonal, ends where it should, and keeps clear of
other nodes. -/
def checkPath (diagram : Diagram α) (edge : Edge) (path : Polyline α) :
    Except Fault Unit :=
  let source := edge.source.node
  let target := edge.target.node
  if !path.isFinite || !path.isOrthogonal then
    .error (.notOrthogonal source target edge.kind)
  else if !isAttached path.start? (diagram.anchor? edge.source) ||
      !isAttached path.finish? (diagram.anchor? edge.target) then
    .error (.detached source target edge.kind)
  else
    match diagram.crossed? edge path with
    | some crossed => .error (.crossesNode source target edge.kind crossed)
    | none => .ok ()

def connect (settings : LayoutSettings α) (diagram : Diagram α) (edge : Edge) :
    Except Fault (Connector α) := do
  let path ← diagram.pathOf settings edge
  diagram.checkPath edge path
  return { toEdge := edge, path }

/-- Finds paths for all edges, one after the other. -/
def route (settings : LayoutSettings α) (diagram : Diagram α) :
    Except Fault (RoutedDiagram α) := do
  let connectors ← diagram.edges.mapM (diagram.connect settings)
  return { toDiagram := diagram, connectors }

end Diagram

end Flowchart
