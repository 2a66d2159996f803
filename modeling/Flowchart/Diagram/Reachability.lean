import Flowchart.Diagram.Basic

/-!
Which nodes control flow can reach.
-/

namespace Flowchart.Diagram

variable {α : Type}

/-- The nodes of `unseen` that edges lead to from `pending`, and `pending`
itself, in the order they are found. -/
def follow (edges : List Edge) (unseen pending : List NodeId) : List NodeId :=
  match pending with
  | [] => []
  | id :: rest =>
      if id ∈ unseen then
        let next :=
          (edges.filter fun edge => edge.source.node = id).map
            fun edge => edge.target.node
        id :: follow edges (unseen.erase id) (next ++ rest)
      else follow edges unseen rest
termination_by (unseen.length, pending.length)
decreasing_by
  · apply Prod.Lex.left
    have positive := List.length_pos_of_mem ‹id ∈ unseen›
    rw [List.length_erase_of_mem ‹id ∈ unseen›]
    omega
  · exact Prod.Lex.right _ (Nat.lt_succ_self _)

/-- Whether a node carries no flow of its own. -/
def isFrameless (nodes : List (DiagramNode α)) (id : NodeId) : Bool :=
  (nodes.find? fun node => node.id = id).any fun node => node.figure.isNone

/-- A block without a figure is reached when one of its members is.  Members
come after their block, so one pass from the end settles all. -/
def withBlocks (nodes : List (DiagramNode α)) (reached : List NodeId) :
    List NodeId :=
  nodes.foldr
    (fun node reached =>
      match node.parent with
      | some parent =>
          if node.id ∈ reached && isFrameless nodes parent then
            parent :: reached
          else reached
      | none => reached)
    reached

/-- The identities of all nodes that flow reaches from `starts`. -/
def reachedFrom (nodes : List (DiagramNode α)) (edges : List Edge)
    (starts : List NodeId) : List NodeId :=
  let ids := nodes.map fun node => node.id
  withBlocks nodes (follow edges ids starts)

/-- Marks the nodes that are reached, and the edges that leave them. -/
def markReachable (diagram : Diagram α) (starts : List NodeId) : Diagram α :=
  let reached := reachedFrom diagram.nodes diagram.edges starts
  { diagram with
    nodes := diagram.nodes.map fun node =>
      { node with reachable := decide (node.id ∈ reached) }
    edges := diagram.edges.map fun edge =>
      { edge with reachable := decide (edge.source.node ∈ reached) } }

end Flowchart.Diagram
