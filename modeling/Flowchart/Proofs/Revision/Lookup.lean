import Flowchart.Proofs.Revision.Runs
import Flowchart.Proofs.Tree.Verdict

/-!
# What a tree has under an identity

The node, the children and the parent of an identity, looked for along the walk.
In a tree that is well formed they are those of the one node with the identity.
-/

namespace Flowchart

namespace Tree

variable {α : Type}

/-- The first node that is reached under an identity. -/
def named? (tree : Tree α) (id : NodeId) : Option (Node α) :=
  (tree.find? id).bind tree.node?

/-- The filled places of a node with the identities of what fills them. -/
def childIds (tree : Tree α) (handle : Handle) : List (SlotName × NodeId) :=
  (tree.children handle).filterMap fun (name, child) =>
    (tree.node? child).map fun node => (name, node.id)

/-- The filled places of the first node under an identity. -/
def childrenOf (tree : Tree α) (id : NodeId) : List (SlotName × NodeId) :=
  match tree.find? id with
  | some handle => tree.childIds handle
  | none => []

/-- The identity of the first node that has a child with an identity. -/
def parentOf? (tree : Tree α) (id : NodeId) : Option NodeId :=
  tree.walk.findSome? fun (handle, _) =>
    if (tree.childIds handle).any fun child => child.2 = id then
      (tree.node? handle).map fun node => node.id
    else none

end Tree

namespace Program

variable {α : Type}

/-- The names of the filled places of a node with a number of children. -/
def placesOf : Tag → (count : Nat) → List SlotName
  | .block, count => (List.range count).map .member
  | .selection, count => (List.range count).map .arm
  | .decision, count => [.consequent, .alternative].take count
  | .loop _, _ | .container _, _ => [.body]
  | .statement, _ | .result, _ | .typeDefinition, _ => []

theorem places_of_tag {L : Type} (program : Program L) :
    program.places = placesOf program.tag program.children.length := by
  cases program with
  | decision label consequent alternative => cases alternative <;> rfl
  | selection label arms => simp [places, placesOf, tag, children]
  | _ => rfl

/-- The places of a node with the identities of its children. -/
def childPlaces (node : Located α) : List (SlotName × NodeId) :=
  node.places.zip (node.children.map identity)

theorem map_snd_childPlaces (node : Located α) :
    node.childPlaces.map Prod.snd = node.children.map identity :=
  map_snd_places node

end Program

namespace Tree

variable {α : Type} {tree : Tree α}

theorem Holds.childIds_eq {node : Located α} (holds : tree.Holds node) :
    tree.childIds node.handle = node.childPlaces := by
  have stored : ∀ child ∈ node.children,
      tree.node? child.handle = some child.node :=
    fun child childIn => (holds.child childIn).root
  rw [childIds, holds.children_eq, Program.childPlaces, List.zip_map_right,
    List.filterMap_map, List.zip_map_right, ← List.filterMap_eq_map]
  refine List.filterMap_congr fun child childIn => ?_
  simp only [Function.comp_apply, Prod.map_snd, Prod.map_fst,
    stored child.2 (List.of_mem_zip childIn).2]
  rfl

variable {program : Located α}

theorem Bears.mem_identities (bears : tree.Bears program)
    {id : NodeId} :
    id ∈ tree.identities ↔ ∃ node ∈ program.preorder, node.identity = id := by
  rw [bears.identities_eq, Program.identities, List.mem_map]

theorem Bears.holds_of_mem (bears : tree.Bears program)
    {node : Located α} (nodeIn : node ∈ program.preorder) : tree.Holds node :=
  fun inner innerIn => bears.holds inner (Program.mem_preorder_trans nodeIn innerIn)

/-- The walk finds the one node that has the identity. -/
theorem Bears.find_eq (bears : tree.Bears program) {node : Located α}
    (nodeIn : node ∈ program.preorder) :
    tree.find? node.identity = some node.handle := by
  have searched : tree.find? node.identity =
      (tree.walk.map Prod.fst).find? fun handle =>
        (tree.node? handle).any fun found => found.id = node.identity := by
    rw [List.find?_map]
    rfl
  have passes : ∀ other ∈ program.preorder,
      ((tree.node? other.handle).any fun found => found.id = node.identity) =
        decide (other.identity = node.identity) := by
    intro other otherIn
    rw [bears.holds other otherIn]
    rfl
  rw [searched, bears.walk_eq, Program.handles, List.find?_map]
  have found : program.preorder.find? ((fun handle =>
      (tree.node? handle).any fun found => found.id = node.identity) ∘
        Program.handle) = some node := by
    rw [List.find?_eq_some_iff_append]
    obtain ⟨before, after, isSplit⟩ := List.append_of_mem nodeIn
    refine ⟨?_, before, after, isSplit, fun other otherIn => ?_⟩
    · simpa using passes node nodeIn
    · have otherBelow : other ∈ program.preorder := by
        rw [isSplit]
        exact List.mem_append_left _ otherIn
      have distinct := bears.identitiesNodup
      rw [Program.identities, isSplit, List.map_append, List.map_cons,
        List.nodup_append] at distinct
      have different : other.identity ≠ node.identity :=
        distinct.2.2 _ (List.mem_map_of_mem otherIn) _ List.mem_cons_self
      simpa [passes other otherBelow] using different
  rw [found]
  rfl

theorem Bears.named_eq (bears : tree.Bears program) {node : Located α}
    (nodeIn : node ∈ program.preorder) :
    tree.named? node.identity = some node.node := by
  rw [named?, bears.find_eq nodeIn]
  exact bears.holds node nodeIn

theorem Bears.exists_of_named (bears : tree.Bears program)
    {id : NodeId} {found : Node α} (isNamed : tree.named? id = some found) :
    ∃ node ∈ program.preorder, node.identity = id ∧ node.node = found := by
  obtain ⟨handle, isFound, isNode⟩ := Option.bind_eq_some_iff.mp isNamed
  obtain ⟨entry, isEntry, rfl⟩ := Option.map_eq_some_iff.mp isFound
  have visited := List.mem_map_of_mem (f := Prod.fst)
    (List.mem_of_find?_eq_some isEntry)
  rw [bears.walk_eq] at visited
  obtain ⟨node, nodeIn, atHandle⟩ := List.mem_map.mp visited
  have hasId := List.find?_some isEntry
  rw [← atHandle, bears.holds node nodeIn] at isNode
  simp only [← atHandle, bears.holds node nodeIn, Option.any_some,
    decide_eq_true_eq] at hasId
  exact ⟨node, nodeIn, hasId, Option.some.inj isNode⟩

theorem Bears.childrenOf_eq (bears : tree.Bears program)
    {node : Located α} (nodeIn : node ∈ program.preorder) :
    tree.childrenOf node.identity = node.childPlaces := by
  rw [childrenOf, bears.find_eq nodeIn]
  exact (bears.holds_of_mem nodeIn).childIds_eq

/-- An identity has the parent that the pairs of children and parents tell. -/
theorem Bears.parentOf_eq (bears : tree.Bears program) (id : NodeId) :
    tree.parentOf? id = tree.parentIds.lookup id := by
  have searched : tree.parentOf? id =
      program.preorder.findSome? fun node =>
        if id ∈ node.children.map Program.identity then some node.identity
        else none := by
    have along : tree.parentOf? id =
        (tree.walk.map Prod.fst).findSome? fun handle =>
          if (tree.childIds handle).any fun child => child.2 = id then
            (tree.node? handle).map fun node => node.id
          else none := by
      rw [List.findSome?_map]
      rfl
    rw [along, bears.walk_eq, Program.handles, List.findSome?_map]
    refine findSome?_congr fun node nodeIn => ?_
    have isChild : ((tree.childIds node.handle).any fun child =>
          decide (child.2 = id)) =
        decide (id ∈ node.children.map Program.identity) := by
      rw [(bears.holds_of_mem nodeIn).childIds_eq, Bool.eq_iff_iff,
        List.any_eq_true, decide_eq_true_iff, ← Program.map_snd_places,
        List.mem_map]
      simp only [decide_eq_true_eq]
      rfl
    rw [Function.comp_apply, isChild, bears.holds node nodeIn]
    by_cases childIn : id ∈ node.children.map Program.identity
    · rw [decide_eq_true childIn, if_pos rfl, if_pos childIn]
      rfl
    · rw [decide_eq_false childIn, if_neg Bool.false_ne_true, if_neg childIn]
  rw [searched]
  cases isParent : tree.parentIds.lookup id with
  | none =>
      rw [List.findSome?_eq_none_iff]
      intro node nodeIn
      rw [if_neg]
      rw [bears.mem_children_iff nodeIn, isParent]
      exact Option.some_ne_none _ ∘ Eq.symm
  | some parent =>
      obtain ⟨child, holder, isKin, rfl, rfl⟩ := bears.lookup_parent.mp isParent
      obtain ⟨holderIn, childIn⟩ := Program.mem_kinships.mp isKin
      obtain ⟨before, after, isSplit⟩ := List.append_of_mem holderIn
      rw [List.findSome?_eq_some_iff]
      refine ⟨before, holder, after, isSplit, ?_, fun other otherIn => ?_⟩
      · exact if_pos (List.mem_map_of_mem childIn)
      · have otherBelow : other ∈ program.preorder := by
          rw [isSplit]
          exact List.mem_append_left _ otherIn
        rw [if_neg]
        rw [bears.mem_children_iff otherBelow, isParent]
        intro same
        have distinct := bears.identitiesNodup
        rw [Program.identities, isSplit, List.map_append, List.map_cons,
          List.nodup_append] at distinct
        exact distinct.2.2 _ (List.mem_map_of_mem otherIn) _ List.mem_cons_self
          (Option.some.inj same).symm

theorem Bears.mem_identities_of_parent (bears : tree.Bears program)
    {id parent : NodeId} (isParent : tree.parentOf? id = some parent) :
    id ∈ tree.identities := by
  rw [bears.parentOf_eq] at isParent
  obtain ⟨child, holder, isKin, rfl, -⟩ := bears.lookup_parent.mp isParent
  obtain ⟨holderIn, childIn⟩ := Program.mem_kinships.mp isKin
  rw [bears.identities_eq]
  exact List.mem_map_of_mem
    (Program.mem_preorder_trans holderIn (Program.child_mem_preorder childIn))

end Tree

end Flowchart
