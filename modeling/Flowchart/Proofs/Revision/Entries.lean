import Flowchart.Proofs.Revision.Kinship

/-!
# What two revisions are compared by

A tree that is well formed has one entry for every node of its program, in order,
and the parent of an entry is the parent of the node.  So the patches between two
such trees tell, node by node, all that is not the same.
-/

namespace Flowchart

/-! ## Entries -/

namespace Program

variable {α : Type}

/-- What a revision knows of a node. -/
def revisionEntry (parents : Parents) (node : Located α) : RevisionEntry α :=
  { id := node.identity
    tag := node.tag
    text := node.label.2.text
    hint := node.label.2.hint
    kind := node.construct.statementKind?
    patterns := node.construct.patterns
    parent := parents.lookup node.identity
    children := node.places.zip (node.children.map identity) }

theorem map_snd_places (node : Located α) :
    (node.places.zip (node.children.map identity)).map Prod.snd =
      node.children.map identity :=
  List.map_snd_zip (by simp [length_places])

/-- The children of some nodes, each with its parent. -/
def offspring (nodes : List (Located α)) : Parents :=
  nodes.flatMap fun node =>
    node.children.map fun child => (child.identity, node.identity)

theorem offspring_preorder (program : Located α) :
    offspring program.preorder = program.kinships.map fun kinship =>
      (kinship.1.identity, kinship.2.identity) := by
  simp only [offspring, kinships, List.map_flatMap, List.map_map,
    Function.comp_def]

theorem fst_offspring (nodes : List (Located α)) :
    (offspring nodes).map Prod.fst =
      nodes.flatMap fun node => node.children.map identity := by
  simp only [offspring, List.map_flatMap, List.map_map, Function.comp_def]

/-- No node comes after one of its children. -/
theorem preorder_pairwise {program : Located α}
    (distinct : program.identities.Nodup) :
    program.preorder.Pairwise fun earlier later =>
      earlier.identity ∉ later.children.map identity := by
  induction program using childrenInduction with
  | step program ih =>
    rw [identities_eq, List.nodup_cons, List.nodup_flatMap] at distinct
    obtain ⟨rootNew, eachDistinct, apart⟩ := distinct
    have childIn_identities : ∀ {node child : Located α},
        node ∈ child.preorder → ∀ id ∈ node.children.map identity,
          id ∈ child.identities := by
      intro node child nodeIn id idIn
      obtain ⟨inner, innerIn, rfl⟩ := List.mem_map.mp idIn
      exact List.mem_map_of_mem
        (mem_preorder_trans nodeIn (child_mem_preorder innerIn))
    rw [preorder_eq, List.pairwise_cons, List.pairwise_flatMap]
    refine ⟨?_, fun child childIn => ih child childIn (eachDistinct child childIn),
      ?_⟩
    · intro later laterIn again
      obtain ⟨child, childIn, laterIn⟩ := List.mem_flatMap.mp laterIn
      exact rootNew (List.mem_flatMap.mpr
        ⟨child, childIn, childIn_identities laterIn _ again⟩)
    · refine apart.imp ?_
      intro left right disjoint earlier earlierIn later laterIn again
      exact disjoint (List.mem_map_of_mem earlierIn)
        (childIn_identities laterIn _ again)

end Program

namespace Tree

variable {α : Type} {tree : Tree α}

theorem Holds.ofNode_eq {node : Located α} (holds : tree.Holds node)
    (links : Parents) :
    RevisionEntry.ofNode tree links node.node =
      (node.revisionEntry ((Program.offspring [node]).reverse ++ links),
        (Program.offspring [node]).reverse ++ links) := by
  have stored : ∀ child ∈ node.children,
      tree.node? child.handle = some child.node :=
    fun child childIn => (holds.child childIn).root
  have named : node.construct.children.filterMap (fun child =>
        (tree.node? child.2).map fun stored => (child.1, stored.id)) =
      node.places.zip (node.children.map Program.identity) := by
    rw [Program.children_construct, List.zip_map_right, List.filterMap_map,
      List.zip_map_right, ← List.filterMap_eq_map]
    refine List.filterMap_congr fun child childIn => ?_
    simp only [Function.comp_apply, Prod.map_snd,
      stored child.2 (List.of_mem_zip childIn).2]
    rfl
  have listed : (node.places.zip (node.children.map Program.identity)).map
        (fun child => (child.2, node.identity)) =
      Program.offspring [node] := by
    have paired := congrArg (List.map fun id => (id, node.identity))
      (Program.map_snd_places node)
    simpa [Program.offspring, Function.comp_def] using paired
  have linked : (node.places.zip (node.children.map Program.identity)).foldl
        (fun links child => (child.2, node.identity) :: links) links =
      (Program.offspring [node]).reverse ++ links := by
    rw [List.foldl_flip_cons_eq_append, listed]
  have construct : node.node.construct = node.construct := rfl
  have identity : node.node.id = node.identity := rfl
  unfold RevisionEntry.ofNode
  dsimp only
  rw [construct, named, identity, linked]
  simp [Program.revisionEntry, Node.tag, Program.node]

/-- The entries of nodes, of which none comes after a child of it. -/
theorem ofNodes_eq {nodes : List (Located α)}
    (holds : ∀ node ∈ nodes, tree.Holds node)
    (ordered : nodes.Pairwise fun earlier later =>
      earlier.identity ∉ later.children.map Program.identity)
    (links : Parents) :
    RevisionEntry.ofNodes tree links (nodes.map Program.node) =
      nodes.map (Program.revisionEntry ((Program.offspring nodes).reverse ++ links)) := by
  induction nodes generalizing links with
  | nil => rfl
  | cons node rest ih =>
      rw [List.pairwise_cons] at ordered
      have first := (holds node List.mem_cons_self).ofNode_eq links
      have later := ih (fun other otherIn =>
        holds other (List.mem_cons_of_mem _ otherIn)) ordered.2
        ((Program.offspring [node]).reverse ++ links)
      have split : (Program.offspring (node :: rest)).reverse ++ links =
          (Program.offspring rest).reverse ++
            ((Program.offspring [node]).reverse ++ links) := by
        simp [Program.offspring]
      have notBelow : (Program.offspring rest).reverse.lookup node.identity =
          none := by
        rw [List.lookup_eq_none_iff]
        intro pair pairIn
        rw [bne_iff_ne]
        intro same
        have isChild := List.mem_map_of_mem (f := Prod.fst)
          (List.mem_reverse.mp pairIn)
        rw [Program.fst_offspring, List.mem_flatMap] at isChild
        obtain ⟨other, otherIn, isChild⟩ := isChild
        exact ordered.1 other otherIn (same ▸ isChild)
      have sameParent : node.revisionEntry ((Program.offspring rest).reverse ++
            ((Program.offspring [node]).reverse ++ links)) =
          node.revisionEntry ((Program.offspring [node]).reverse ++ links) := by
        rw [Program.revisionEntry, List.lookup_append, notBelow]
        rfl
      rw [List.map_cons, RevisionEntry.ofNodes, first]
      dsimp only
      rw [later, List.map_cons, split, sameParent]

variable {program : Located α}

theorem Bears.entries_eq (bears : tree.Bears program) :
    RevisionEntry.ofTree tree =
      program.preorder.map (Program.revisionEntry tree.parentIds) := by
  have nodes : (tree.walk.filterMap fun visited => tree.node? visited.1) =
      program.preorder.map Program.node := by
    have along : (tree.walk.filterMap fun visited => tree.node? visited.1) =
        (tree.walk.map Prod.fst).filterMap tree.node? := by
      rw [List.filterMap_map]
      rfl
    rw [along, bears.walk_eq, Program.handles, List.filterMap_map,
      ← List.filterMap_eq_map]
    exact List.filterMap_congr fun node nodeIn => bears.holds node nodeIn
  have inner : ∀ node ∈ program.preorder, tree.Holds node :=
    fun node nodeIn other otherIn =>
      bears.holds other (Program.mem_preorder_trans nodeIn otherIn)
  have listed := ofNodes_eq inner
    (Program.preorder_pairwise bears.identitiesNodup) []
  rw [List.append_nil, Program.offspring_preorder, ← bears.parentIds_eq]
    at listed
  rw [RevisionEntry.ofTree, nodes, listed]
  refine Keyed.ofList_eq_self ?_
  rw [List.map_map]
  exact bears.identitiesNodup

theorem Bears.find_entry (bears : tree.Bears program)
    {node : Located α} (nodeIn : node ∈ program.preorder) :
    Keyed.find? RevisionEntry.id (RevisionEntry.ofTree tree) node.identity =
      some (node.revisionEntry tree.parentIds) := by
  rw [bears.entries_eq]
  refine Keyed.find?_eq_some ?_
    (List.mem_map_of_mem nodeIn : node.revisionEntry tree.parentIds ∈ _)
  rw [List.map_map]
  exact bears.identitiesNodup

theorem Bears.find_entry_none (bears : tree.Bears program)
    {id : NodeId} (missing : id ∉ program.identities) :
    Keyed.find? RevisionEntry.id (RevisionEntry.ofTree tree) id = none := by
  rw [bears.entries_eq]
  refine Keyed.find?_eq_none ?_
  rw [List.map_map]
  exact missing

/-! ## Patches -/

section

variable [Scalar α] {old new : Tree α} {before after : Located α}
  (oldBears : old.Bears before) (newBears : new.Bears after)

include oldBears newBears

theorem insert_mem_diff {node : Located α} (nodeIn : node ∈ after.preorder)
    (isNew : node.identity ∉ before.identities) :
    Patch.insert node.identity (new.parentIds.lookup node.identity) ∈
      old.diff new := by
  refine List.mem_append_left _ (List.mem_flatMap.mpr
    ⟨node.revisionEntry new.parentIds, ?_, ?_⟩)
  · rw [newBears.entries_eq]
    exact List.mem_map_of_mem nodeIn
  · have notFound : Keyed.find? RevisionEntry.id (RevisionEntry.ofTree old)
        (node.revisionEntry new.parentIds).id = none :=
      oldBears.find_entry_none isNew
    rw [notFound]
    exact List.mem_singleton.mpr rfl

theorem remove_mem_diff {node : Located α} (nodeIn : node ∈ before.preorder)
    (isGone : node.identity ∉ after.identities) :
    Patch.remove node.identity ∈ old.diff new := by
  refine List.mem_append_right _ (List.mem_filterMap.mpr
    ⟨node.revisionEntry old.parentIds, ?_, ?_⟩)
  · rw [oldBears.entries_eq]
    exact List.mem_map_of_mem nodeIn
  · have notFound : Keyed.find? RevisionEntry.id (RevisionEntry.ofTree new)
        (node.revisionEntry old.parentIds).id = none :=
      newBears.find_entry_none isGone
    rw [notFound]
    rfl

theorem change_mem_diff {node later : Located α}
    (nodeIn : node ∈ before.preorder) (laterIn : later ∈ after.preorder)
    (same : node.identity = later.identity) {patch : Patch}
    (isChange : patch ∈
      (node.revisionEntry old.parentIds).changes (later.revisionEntry new.parentIds)) :
    patch ∈ old.diff new := by
  refine List.mem_append_left _ (List.mem_flatMap.mpr
    ⟨later.revisionEntry new.parentIds, ?_, ?_⟩)
  · rw [newBears.entries_eq]
    exact List.mem_map_of_mem laterIn
  · have found : Keyed.find? RevisionEntry.id (RevisionEntry.ofTree old)
        (later.revisionEntry new.parentIds).id = some (node.revisionEntry old.parentIds) := by
      have ofNode := oldBears.find_entry nodeIn
      rw [same] at ofNode
      exact ofNode
    rw [found]
    exact isChange

end

end Tree

end Flowchart
