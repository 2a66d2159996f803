import Flowchart.Diagram.Reachability
import Flowchart.Diagram.Wiring
import Flowchart.Keyed
import Flowchart.Layout.Cache
import Flowchart.Tree.Validity

/-!
From trees to diagrams: a tree is checked, measured, placed and wired, and the
result is checked again.
-/

namespace Flowchart

/-- Why there is no diagram of a tree: the tree is malformed, or the result
would be. -/
inductive LayoutError where
  | structural (defect : Defect)
  | inconsistent (fault : Fault)
deriving DecidableEq, Repr

namespace LayoutError

def message : LayoutError → String
  | .structural defect => "Structural error: " ++ defect.message
  | .inconsistent fault => "Consistency error: " ++ fault.message

end LayoutError

namespace Diagram

variable {α : Type} [Scalar α]

/-- Passes an endpoint that names an anchor of a node. -/
def checkEndpoint (nodes : List (DiagramNode α)) (endpoint : Endpoint) :
    Except Fault Unit :=
  match Keyed.find? DiagramNode.id nodes endpoint.node with
  | none => .error (.unknownNode endpoint.node)
  | some node =>
      if (node.anchor? endpoint.anchor).isSome then .ok ()
      else .error (.unknownAnchor endpoint.node endpoint.anchor)

/-- The diagram of an arrangement. -/
def ofArrangement (arrangement : Arrangement α) : Except Fault (Diagram α) := do
  let nodes := Keyed.ofList DiagramNode.id (arrangement.place .origin none 0)
  let (edges, starts) := (arrangement.map Frame.id).flow
  edges.forM fun edge => do
    checkEndpoint nodes edge.source
    checkEndpoint nodes edge.target
  if let some (first, second) := arrangement.overlap? .origin then
    throw (.siblingOverlap first second)
  let diagram : Diagram α :=
    { root := arrangement.label.id
      bounds := .ofTopLeft .origin arrangement.label.size
      nodes
      edges }
  return diagram.markReachable starts

end Diagram

namespace Tree

variable {α : Type} [Scalar α]

/-- The program of a tree that was found well formed. -/
def program (tree : Tree α) (limit : Nat) : Except LayoutError (Program (Label α)) :=
  match tree.validate limit, tree.root with
  | .error defect, _ => .error (.structural defect)
  | .ok (), none => .error (.structural .emptyTree)
  | .ok (), some root =>
      match tree.unfold (limit + 1) root with
      | .ok program => .ok program
      | .error handle => .error (.inconsistent (.missingNode handle))

/-- Lays out a tree with the arrangements in a cache.  Afterwards the cache
holds the nodes of this tree and no others, unless the layout fails. -/
def layoutCached (settings : LayoutSettings α) (tree : Tree α)
    (cache : ArrangementCache α) :
    Except LayoutError (Diagram α) × ArrangementCache α :=
  match tree.program settings.maxDepth with
  | .error error => (.error error, cache)
  | .ok program =>
      match (program.measure settings).run.run cache with
      | (.error fault, cache) => (.error (.inconsistent fault), cache)
      | (.ok arrangement, cache) =>
          match Diagram.ofArrangement arrangement with
          | .error fault => (.error (.inconsistent fault), cache)
          | .ok diagram => (.ok diagram, cache.retain arrangement)

/-- Lays out a tree on its own. -/
def layout (settings : LayoutSettings α) (tree : Tree α) :
    Except LayoutError (Diagram α) :=
  (tree.layoutCached settings .empty).1

end Tree

end Flowchart
