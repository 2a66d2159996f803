import Flowchart.Tree.Arena

/-!
Visiting a tree from its root, parents before children and siblings in order.
A visit goes on over any tree, well formed or not: a node is entered once, and
handles that lead nowhere are passed over.
-/

namespace Flowchart.Tree

variable {α : Type}

/-- Visits the handles of `pending` with the depths given, then what is below
them.  Only nodes in `unseen` are entered. -/
def visit (tree : Tree α) (unseen : List Handle)
    (pending : List (Handle × Nat)) : List (Handle × Nat) :=
  match pending with
  | [] => []
  | (handle, depth) :: rest =>
      if handle ∈ unseen then
        let below :=
          (tree.children handle).map fun (_, child) => (child, depth + 1)
        (handle, depth) :: tree.visit (unseen.erase handle) (below ++ rest)
      else tree.visit unseen rest
termination_by (unseen.length, pending.length)
decreasing_by
  · apply Prod.Lex.left
    have positive := List.length_pos_of_mem ‹handle ∈ unseen›
    rw [List.length_erase_of_mem ‹handle ∈ unseen›]
    omega
  · exact Prod.Lex.right _ (Nat.lt_succ_self _)

/-- Every node that can be reached from the root, with its depth. -/
def walk (tree : Tree α) : List (Handle × Nat) :=
  tree.visit (List.range tree.size) (tree.root.toList.map fun root => (root, 0))

/-- The first reachable node with an identity. -/
def find? (tree : Tree α) (id : NodeId) : Option Handle :=
  (tree.walk.find? fun (handle, _) =>
    (tree.node? handle).any fun node => node.id = id).map Prod.fst

/-- The child and the parent of every filled place of a reachable node, in the
order of the walk. -/
def links (tree : Tree α) : List (Handle × Handle) :=
  tree.walk.flatMap fun (handle, _) =>
    (tree.children handle).map fun (_, child) => (child, handle)

/-- The first node of the walk that refers to a child. -/
def parent? (tree : Tree α) (child : Handle) : Option Handle :=
  tree.links.lookup child

/-- The parent of every child of a reachable node, each child once. -/
def parents (tree : Tree α) : List (Handle × Handle) :=
  tree.links.foldl
    (fun known link =>
      if known.any (·.1 = link.1) then known else known ++ [link])
    []

end Flowchart.Tree
