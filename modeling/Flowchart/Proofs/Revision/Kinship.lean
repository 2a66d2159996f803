import Flowchart.Proofs.Keyed
import Flowchart.Proofs.Tree.Reading
import Flowchart.Revision.Session

/-!
# Whose child a node is

In a tree that is well formed every node but the root is the child of one node,
so that the identities above an identity are those of the nodes above its node.
-/

namespace Flowchart

/-! ## Children and their parents -/

namespace Program

section

variable {L : Type}

/-- Every node but the root with its parent, in the order of the parents. -/
def kinships (program : Program L) : List (Program L × Program L) :=
  program.preorder.flatMap fun parent =>
    parent.children.map fun child => (child, parent)

theorem mem_kinships {program child parent : Program L} :
    (child, parent) ∈ program.kinships ↔
      parent ∈ program.preorder ∧ child ∈ parent.children := by
  simp only [kinships, List.mem_flatMap, List.mem_map, Prod.mk.injEq]
  constructor
  · rintro ⟨other, otherIn, kept, keptIn, rfl, rfl⟩
    exact ⟨otherIn, keptIn⟩
  · rintro ⟨parentIn, childIn⟩
    exact ⟨parent, parentIn, child, childIn, rfl, rfl⟩

/-- Every node is the root or the child of one node. -/
theorem preorder_perm_kinships (program : Program L) :
    program.preorder.Perm (program :: program.kinships.map Prod.fst) := by
  induction program using childrenInduction with
  | step program ih =>
    have below : (program.children.flatMap preorder).Perm
        (program.children ++ program.children.flatMap fun child =>
          child.kinships.map Prod.fst) := by
      have singles : (program.children.flatMap fun child => [child]) =
          program.children := List.flatMap_singleton' _
      have split := List.flatMap_append_perm program.children
        (fun child => [child]) fun child => child.kinships.map Prod.fst
      rw [singles] at split
      exact (List.Perm.flatMap_left _ ih).trans split.symm
    have listed : program.kinships.map Prod.fst =
        program.children ++ program.children.flatMap fun child =>
          child.kinships.map Prod.fst := by
      rw [kinships, preorder_eq, List.flatMap_cons, List.map_append,
        List.flatMap_assoc, List.map_flatMap, List.map_map]
      exact congrArg (· ++ _) (List.map_id' _)
    rw [preorder_eq, listed]
    exact below.cons program

/-- A node and those above it are not more than there are nodes. -/
theorem Stands.length_le {root node : Program L} {above : List (Program L)}
    (stands : Stands root above node) :
    above.length + node.preorder.length ≤ root.preorder.length := by
  induction stands with
  | root => simp
  | @child above parent node _ nodeIn ih =>
      have below : node.preorder.length ≤
          (parent.children.flatMap preorder).length :=
        (List.sublist_flatten_of_mem (List.mem_map_of_mem nodeIn)).length_le
      rw [preorder_eq parent, List.length_cons] at ih
      rw [List.length_cons]
      omega

end

variable {α : Type}

theorem identities_perm_kinships (program : Located α) :
    program.identities.Perm
      (program.identity ::
        program.kinships.map fun kinship => kinship.1.identity) := by
  have renamed := (program.preorder_perm_kinships).map identity
  rw [List.map_cons, List.map_map] at renamed
  exact renamed

end Program

namespace Tree

variable {α : Type} {tree : Tree α} {program : Located α}

/-! ## In a tree -/

/-- No child is listed twice where no child has two parents. -/
private theorem foldl_links (links : List (Handle × Handle))
    (known : List (Handle × Handle))
    (distinct : ((known ++ links).map Prod.fst).Nodup) :
    links.foldl
      (fun known link =>
        if known.any (·.1 = link.1) then known else known ++ [link]) known =
      known ++ links := by
  induction links generalizing known with
  | nil => simp
  | cons link rest ih =>
      have isNew : known.any (fun other => decide (other.1 = link.1)) = false := by
        rw [List.any_eq_false]
        intro other otherIn same
        rw [List.map_append, List.nodup_append] at distinct
        exact distinct.2.2 _ (List.mem_map_of_mem otherIn) _ (by simp)
          (of_decide_eq_true same)
      rw [List.foldl_cons, isNew, ih _ (by simpa using distinct)]
      simp

theorem Bears.links_eq (bears : tree.Bears program) :
    tree.links = program.kinships.map fun kinship =>
      (kinship.1.handle, kinship.2.handle) := by
  have along : tree.links = (tree.walk.map Prod.fst).flatMap fun handle =>
      (tree.children handle).map fun child => (child.2, handle) := by
    rw [List.flatMap_map]
    rfl
  rw [along, bears.walk_eq, Program.handles, List.flatMap_map,
    Program.kinships, List.map_flatMap]
  refine List.flatMap_congr fun node nodeIn => ?_
  have holds : tree.Holds node := fun inner innerIn =>
    bears.holds inner (Program.mem_preorder_trans nodeIn innerIn)
  have paired := congrArg (List.map fun child => (child, node.handle))
    holds.childHandles_eq
  simpa [List.map_map, Function.comp_def] using paired

theorem Bears.parents_eq (bears : tree.Bears program) :
    tree.parents = tree.links := by
  have distinct : (tree.links.map Prod.fst).Nodup := by
    have below := bears.handlesNodup
    rw [Program.handles,
      ((program.preorder_perm_kinships).map Program.handle).nodup_iff,
      List.map_cons, List.map_map] at below
    rw [bears.links_eq, List.map_map]
    exact (List.nodup_cons.mp below).2
  exact foldl_links tree.links [] distinct

theorem Bears.parentIds_eq (bears : tree.Bears program) :
    tree.parentIds = (program.kinships.map fun kinship =>
      (kinship.1.identity, kinship.2.identity)).reverse := by
  have stored : ∀ kinship ∈ program.kinships,
      tree.node? kinship.1.handle = some kinship.1.node ∧
        tree.node? kinship.2.handle = some kinship.2.node := by
    rintro ⟨child, parent⟩ isKin
    obtain ⟨parentIn, childIn⟩ := Program.mem_kinships.mp isKin
    have childBelow := Program.mem_preorder_trans parentIn
      (Program.child_mem_preorder childIn)
    exact ⟨bears.holds child childBelow, bears.holds parent parentIn⟩
  rw [parentIds, parentIdsIn, bears.parents_eq, bears.links_eq,
    List.filterMap_map, ← List.filterMap_eq_map]
  refine congrArg List.reverse (List.filterMap_congr fun kinship isKin => ?_)
  simp only [Function.comp_apply, (stored kinship isKin).1,
    (stored kinship isKin).2]
  rfl

theorem Bears.parents_distinct (bears : tree.Bears program) :
    (program.identity :: tree.parentIds.map Prod.fst).Nodup := by
  have below := bears.identitiesNodup
  rw [program.identities_perm_kinships.nodup_iff] at below
  rw [bears.parentIds_eq, List.map_reverse, List.map_map]
  rw [List.nodup_cons] at below ⊢
  exact ⟨fun again => below.1 (List.mem_reverse.mp again),
    List.nodup_reverse.mpr below.2⟩

/-- The parent found for an identity is the parent of its node. -/
theorem Bears.lookup_parent (bears : tree.Bears program)
    {id parentId : NodeId} :
    tree.parentIds.lookup id = some parentId ↔
      ∃ child parent, (child, parent) ∈ program.kinships ∧
        child.identity = id ∧ parent.identity = parentId := by
  have distinct := (List.nodup_cons.mp bears.parents_distinct).2
  rw [Keyed.lookup_eq_some distinct, bears.parentIds_eq, List.mem_reverse,
    List.mem_map]
  simp

theorem Bears.eq_of_identity (bears : tree.Bears program)
    {left right : Located α} (leftIn : left ∈ program.preorder)
    (rightIn : right ∈ program.preorder)
    (same : left.identity = right.identity) : left = right :=
  List.inj_on_of_nodup_map bears.identitiesNodup leftIn rightIn same

/-- The children of a node are those whose parent has its identity. -/
theorem Bears.mem_children_iff (bears : tree.Bears program)
    {node : Located α} (nodeIn : node ∈ program.preorder) {id : NodeId} :
    id ∈ node.children.map Program.identity ↔
      tree.parentIds.lookup id = some node.identity := by
  rw [bears.lookup_parent, List.mem_map]
  constructor
  · rintro ⟨child, childIn, rfl⟩
    exact ⟨child, node, Program.mem_kinships.mpr ⟨nodeIn, childIn⟩, rfl, rfl⟩
  · rintro ⟨child, parent, isKin, rfl, sameParent⟩
    obtain ⟨parentIn, childIn⟩ := Program.mem_kinships.mp isKin
    obtain rfl := bears.eq_of_identity parentIn nodeIn sameParent
    exact ⟨child, childIn, rfl⟩

theorem Bears.children_distinct (bears : tree.Bears program)
    {node : Located α} (nodeIn : node ∈ program.preorder) :
    (node.children.map Program.identity).Nodup := by
  have below := bears.identitiesNodup
  rw [program.identities_perm_kinships.nodup_iff, List.nodup_cons,
    Program.kinships, List.map_flatMap] at below
  refine below.2.sublist ?_
  simp only [List.map_map, Function.comp_def]
  exact List.sublist_flatten_of_mem (List.mem_map.mpr ⟨node, nodeIn, rfl⟩)

theorem Bears.lookup_root (bears : tree.Bears program) :
    tree.parentIds.lookup program.identity = none := by
  rw [List.lookup_eq_none_iff]
  intro pair pairIn
  have apart := (List.nodup_cons.mp bears.parents_distinct).1
  rw [bne_iff_ne]
  intro same
  exact apart (same ▸ List.mem_map_of_mem pairIn)

end Tree

/-! ## Upwards from an identity -/

namespace Parents

variable {parents : Parents}

theorem chain_none (fuel : Nat) : parents.chain fuel none = [] := by
  cases fuel <;> rfl

theorem chain_some (fuel : Nat) (id : NodeId) :
    parents.chain (fuel + 1) (some id) =
      id :: parents.chain fuel (parents.lookup id) :=
  rfl

theorem self_mem_upFrom (id : NodeId) : id ∈ parents.upFrom (some id) :=
  List.mem_cons_self

/-- A patch affects what is above the starts of its ways up. -/
theorem affected_eq (old new : Parents) (patch : Patch) :
    affected old new patch = (starts old patch).flatMap new.upFrom := by
  cases patch <;> simp [affected, starts]

/-- With an identity the parent of it is on a chain that is not cut off. -/
theorem mem_chain_of_lookup {fuel : Nat} {start : Option NodeId}
    (whole : parents.chain (fuel + 1) start = parents.chain fuel start)
    {id above : NodeId} (idIn : id ∈ parents.chain fuel start)
    (isAbove : parents.lookup id = some above) :
    above ∈ parents.chain fuel start := by
  induction fuel generalizing start with
  | zero => cases idIn
  | succ fuel ih =>
      cases start with
      | none => cases idIn
      | some first =>
          rw [chain_some, chain_some, List.cons.injEq] at whole
          rw [chain_some] at idIn ⊢
          refine List.mem_cons_of_mem _ ?_
          rcases List.mem_cons.mp idIn with rfl | idIn
          · rw [← whole.2, isAbove]
            exact List.mem_cons_self
          · exact ih whole.2 idIn

end Parents

namespace Tree

variable {α : Type} {tree : Tree α} {program : Located α}

theorem Bears.chain_eq (bears : tree.Bears program)
    {above : List (Located α)} {node : Located α}
    (stands : program.Stands above node) {fuel : Nat}
    (enough : above.length < fuel) :
    tree.parentIds.chain fuel (some node.identity) =
      node.identity :: above.map Program.identity := by
  induction stands generalizing fuel with
  | root =>
      obtain ⟨fuel, rfl⟩ := Nat.exists_eq_add_one_of_ne_zero enough.ne'
      rw [Parents.chain_some, bears.lookup_root, Parents.chain_none]
      rfl
  | @child above parent node parentStands nodeIn ih =>
      obtain ⟨fuel, rfl⟩ :=
        Nat.exists_eq_add_one_of_ne_zero (Nat.ne_of_gt (Nat.zero_lt_of_lt enough))
      have isParent : tree.parentIds.lookup node.identity =
          some parent.identity :=
        bears.lookup_parent.mpr ⟨node, parent,
          Program.mem_kinships.mpr ⟨parentStands.mem_preorder, nodeIn⟩, rfl, rfl⟩
      rw [Parents.chain_some, isParent, ih (by simpa using enough)]
      rfl

/-- As many steps as there are pairs lead from any identity to the top. -/
theorem Bears.chain_whole (bears : tree.Bears program)
    (start : Option NodeId) :
    tree.parentIds.chain (tree.parentIds.length + 1 + 1) start =
      tree.parentIds.chain (tree.parentIds.length + 1) start := by
  cases start with
  | none => rw [Parents.chain_none, Parents.chain_none]
  | some id =>
      by_cases isNode : id ∈ program.identities
      · obtain ⟨node, nodeIn, rfl⟩ := List.mem_map.mp isNode
        obtain ⟨above, stands⟩ := Program.Stands.of_mem_preorder nodeIn
        have pairs : tree.parentIds.length + 1 = program.preorder.length := by
          rw [bears.parentIds_eq, List.length_reverse, List.length_map,
            program.preorder_perm_kinships.length_eq, List.length_cons,
            List.length_map]
        have nodePositive : 0 < node.preorder.length :=
          List.length_pos_of_mem node.self_mem_preorder
        have fits := stands.length_le
        rw [bears.chain_eq stands (by omega), bears.chain_eq stands (by omega)]
      · have isTop : tree.parentIds.lookup id = none := by
          rw [Option.eq_none_iff_forall_ne_some]
          intro above found
          obtain ⟨child, parent, isKin, rfl, -⟩ := bears.lookup_parent.mp found
          obtain ⟨parentIn, childIn⟩ := Program.mem_kinships.mp isKin
          exact isNode (List.mem_map_of_mem (Program.mem_preorder_trans parentIn
            (Program.child_mem_preorder childIn)))
        rw [Parents.chain_some, Parents.chain_some, isTop, Parents.chain_none,
          Parents.chain_none]

/-- What lies above an identity that is reached is reached as well. -/
theorem Bears.mem_upFrom_of_child (bears : tree.Bears program)
    {parent child : Located α} (parentIn : parent ∈ program.preorder)
    (childIn : child ∈ parent.children) {start : Option NodeId}
    (reached : child.identity ∈ tree.parentIds.upFrom start) :
    parent.identity ∈ tree.parentIds.upFrom start :=
  Parents.mem_chain_of_lookup (bears.chain_whole start) reached
    (bears.lookup_parent.mpr
      ⟨child, parent, Program.mem_kinships.mpr ⟨parentIn, childIn⟩, rfl, rfl⟩)

end Tree

end Flowchart
