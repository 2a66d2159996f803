import Flowchart.Proofs.Layout.Drawn
import Flowchart.Proofs.Revision.Difference

/-!
# Blocks that grow at their end

What a revision is compared by can be read from the program that a tree has,
wherever its nodes are stored.  So a block with further members at its end differs
from the shorter one by insertions only, one for every node of the new members.
-/

namespace Flowchart

/-! ## Programs without their handles -/

namespace Program

section

variable {L M : Type}

def statementKind? : Program L → Option StatementKind
  | .statement _ kind => some kind
  | _ => none

/-- The patterns of a selection. -/
def patterns : Program L → List String
  | .selection _ arms => arms.map Prod.fst
  | _ => []

theorem statementKind?_map (change : L → M) (program : Program L) :
    (program.map change).statementKind? = program.statementKind? := by
  cases program with
  | decision label consequent alternative => cases alternative <;> rfl
  | _ => rfl

theorem patterns_map (change : L → M) (program : Program L) :
    (program.map change).patterns = program.patterns := by
  cases program with
  | decision label consequent alternative => cases alternative <;> rfl
  | selection label arms =>
      simp only [map, patterns, mapArms_eq, List.map_map, Function.comp_def]
  | _ => rfl

theorem kinships_map (change : L → M) (program : Program L) :
    (program.map change).kinships =
      program.kinships.map (Prod.map (map change) (map change)) := by
  rw [kinships, kinships, preorder_map, List.flatMap_map, List.map_flatMap]
  refine List.flatMap_congr fun parent _ => ?_
  rw [children_map, List.map_map, List.map_map]
  rfl

end

variable {α : Type}

theorem statementKind?_construct (program : Located α) :
    program.construct.statementKind? = program.statementKind? := by
  cases program <;> rfl

theorem patterns_construct (program : Located α) :
    program.construct.patterns = program.patterns := by
  cases program with
  | selection label arms =>
      simp only [construct, Construct.patterns, patterns, List.map_map,
        Function.comp_def]
  | _ => rfl

/-- Every node but the root with its parent, by their identities. -/
def parentIds (program : Program (Label α)) : Parents :=
  program.kinships.map fun kinship => (kinship.1.label.id, kinship.2.label.id)

theorem parentIds_written (program : Located α) :
    program.written.parentIds = program.kinships.map fun kinship =>
      (kinship.1.identity, kinship.2.identity) := by
  rw [parentIds, written, kinships_map, List.map_map]
  refine List.map_congr_left fun kinship _ => ?_
  simp only [Function.comp_apply, Prod.map_fst, Prod.map_snd, label_map]
  rfl

theorem parentIds_eq (program : Program (Label α)) :
    program.parentIds =
      program.children.map (fun child => (child.label.id, program.label.id)) ++
        program.children.flatMap parentIds := by
  rw [parentIds, kinships, preorder_eq, List.flatMap_cons, List.map_append,
    List.map_map, List.flatMap_assoc, List.map_flatMap]
  rfl

/-- Every identity but that of the root has a parent. -/
theorem ids_perm_parentIds (program : Program (Label α)) :
    (program.children.flatMap ids).Perm (program.parentIds.map Prod.fst) := by
  have listed := program.preorder_perm_kinships.map fun node => node.label.id
  rw [preorder_eq, List.map_cons, List.map_cons, List.map_flatMap, List.map_map,
    List.perm_cons] at listed
  rw [parentIds, List.map_map]
  exact listed

theorem preorder_written (program : Located α) :
    program.written.preorder = program.preorder.map written :=
  preorder_map _ _

/-- What a revision knows of a node, apart from where it is stored. -/
def recorded (parents : Parents) (node : Program (Label α)) : RevisionEntry α :=
  { id := node.label.id
    tag := node.tag
    text := node.label.text
    hint := node.label.hint
    kind := node.statementKind?
    patterns := node.patterns
    parent := parents.lookup node.label.id
    children := node.places.zip (node.children.map fun child => child.label.id) }

theorem recorded_written (parents : Parents) (node : Located α) :
    node.written.recorded parents = node.revisionEntry parents := by
  have sameChildren : (node.written.children.map fun child => child.label.id) =
      node.children.map identity := by
    rw [children_written, List.map_map]
    exact List.map_congr_left fun child _ => congrArg Label.id child.label_written
  rw [recorded, revisionEntry, sameChildren, label_written, tag_written,
    places_of_tag node.written, places_of_tag node, tag_written, children_written,
    List.length_map, written, statementKind?_map, patterns_map,
    statementKind?_construct, patterns_construct]
  rfl

end Program

namespace Tree

variable {α : Type} {tree : Tree α} {program : Located α}

theorem Bears.mem_parentIds (bears : tree.Bears program) {id parent : NodeId} :
    (id, parent) ∈ program.written.parentIds ↔ tree.parentOf? id = some parent := by
  rw [bears.parentOf_eq, bears.lookup_parent, Program.parentIds_written,
    List.mem_map]
  simp only [Prod.exists, Prod.mk.injEq]

/-- Only the root has no parent. -/
theorem Bears.exists_parent (bears : tree.Bears program) {id : NodeId}
    (idIn : id ∈ program.written.children.flatMap Program.ids) :
    ∃ parent, tree.parentOf? id = some parent := by
  rw [program.written.ids_perm_parentIds.mem_iff] at idIn
  obtain ⟨⟨_, parent⟩, isPair, rfl⟩ := List.mem_map.mp idIn
  exact ⟨parent, bears.mem_parentIds.mp isPair⟩

end Tree

/-! ## Entries that agree -/

namespace RevisionEntry

variable {α : Type} [Scalar α]

/-- No child is moved where others follow. -/
theorem reordered_append (parent : NodeId) {old more : List (SlotName × NodeId)}
    (apart : ∀ child ∈ more, child.2 ∉ old.map Prod.snd) :
    reordered parent old (old ++ more) = [] := by
  have keptOld : kept old (old ++ more) = old := by
    rw [kept, List.filter_eq_self]
    intro child childIn
    exact List.any_eq_true.mpr
      ⟨child, List.mem_append_left _ childIn, decide_eq_true rfl⟩
  have keptNew : kept (old ++ more) old = old := by
    have keptMore : more.filter (fun child =>
        old.any fun other => decide (other.2 = child.2)) = [] := by
      rw [List.filter_eq_nil_iff]
      intro child childIn isKept
      obtain ⟨other, otherIn, same⟩ := List.any_eq_true.mp isKept
      apply apart child childIn
      rw [← of_decide_eq_true same]
      exact List.mem_map_of_mem otherIn
    have keptAgain : old.filter (fun child =>
        old.any fun other => decide (other.2 = child.2)) = old := by
      rw [List.filter_eq_self]
      intro child childIn
      exact List.any_eq_true.mpr ⟨child, childIn, decide_eq_true rfl⟩
    rw [kept, List.filter_append, keptMore, keptAgain, List.append_nil]
  rw [reordered_eq, keptOld, keptNew, List.filterMap_eq_nil_iff]
  intro pair pairIn
  rw [List.zip, List.zipWith_self] at pairIn
  obtain ⟨child, -, rfl⟩ := List.mem_map.mp pairIn
  have stays : switchedBranch child.1 child.1 = false := by
    cases child.1 <;> rfl
  simp [stays]

/-- A node that says the same in both revisions has no patch where its children
are followed by others at most. -/
theorem changes_eq_nil {old new : RevisionEntry α}
    {more : List (SlotName × NodeId)} (tag : old.tag = new.tag)
    (content : old.sameContent new = true) (parent : old.parent = new.parent)
    (children : new.children = old.children ++ more)
    (apart : ∀ child ∈ more, child.2 ∉ old.children.map Prod.snd) :
    old.changes new = [] := by
  rw [changes, children, reordered_append new.id apart]
  simp [tag, content, parent]

theorem sameContent_recorded {node : Program (Label α)}
    (sameHint : (node.label.hint == node.label.hint) = true)
    (oldParents newParents : Parents) :
    (node.recorded oldParents).sameContent (node.recorded newParents) = true := by
  simp [sameContent, Program.recorded, sameHint]

end RevisionEntry

namespace Program

variable {α : Type} {label : Label α} {members added : List (Program (Label α))}

theorem identity_eq (node : Located α) : node.identity = node.written.label.id :=
  (congrArg Label.id node.label_written).symm

/-- With more members a block has more pairs of a child and a parent. -/
theorem parentIds_subset {others : List (Program (Label α))}
    (subset : members ⊆ others) :
    (block label members).parentIds ⊆ (block label others).parentIds := by
  intro pair pairIn
  rw [parentIds_eq, children] at pairIn ⊢
  rcases List.mem_append.mp pairIn with isMember | isBelow
  · exact List.mem_append_left _ (List.map_subset _ subset isMember)
  · obtain ⟨member, memberIn, isBelow⟩ := List.mem_flatMap.mp isBelow
    exact List.mem_append_right _
      (List.mem_flatMap.mpr ⟨member, subset memberIn, isBelow⟩)

/-- Identities of new members are not those from before. -/
theorem notMem_ids_of_added (distinct : (block label (members ++ added)).ids.Nodup)
    {id : NodeId} (isAdded : id ∈ added.flatMap ids) :
    id ∉ (block label members).ids := by
  rw [ids_eq, List.nodup_cons, children, List.flatMap_append, List.nodup_append']
    at distinct
  obtain ⟨rootApart, -, -, apart⟩ := distinct
  rw [ids_eq, List.mem_cons, not_or]
  refine ⟨fun isRoot => rootApart ?_, fun isOld => apart isOld isAdded⟩
  exact isRoot ▸ List.mem_append_right _ isAdded

/-- The new children of a block that grows come behind the others. -/
theorem exists_more (oldParents newParents : Parents)
    (distinct : (block label (members ++ added)).ids.Nodup) :
    ∃ more,
      ((block label (members ++ added)).recorded newParents).children =
        ((block label members).recorded oldParents).children ++ more ∧
      ∀ child ∈ more, child.2 ∉
        ((block label members).recorded oldParents).children.map Prod.snd := by
  have listed : ∀ parents,
      ((block label members).recorded parents).children.map Prod.snd =
        members.map fun child => child.label.id :=
    fun parents => List.map_snd_zip (by simp [places, children])
  have idIn : ∀ {node} {nodes : List (Program (Label α))}, node ∈ nodes →
      node.label.id ∈ nodes.flatMap ids := by
    intro node nodes nodeIn
    refine List.mem_flatMap.mpr ⟨node, nodeIn, ?_⟩
    rw [ids_eq]
    exact List.mem_cons_self
  refine ⟨(((List.range added.length).map (members.length + ·)).map .member).zip
    (added.map fun child => child.label.id), ?_, ?_⟩
  · have lengths : ((List.range members.length).map SlotName.member).length =
        (members.map fun child => child.label.id).length := by simp
    simp only [recorded, places, children, List.map_append, List.length_append,
      List.range_add]
    exact List.zip_append lengths
  · intro child childIn isOld
    rw [listed] at isOld
    obtain ⟨member, memberIn, isMember⟩ := List.mem_map.mp isOld
    obtain ⟨other, otherIn, isOther⟩ :=
      List.mem_map.mp (List.of_mem_zip childIn).2
    apply notMem_ids_of_added distinct (idIn otherIn)
    rw [isOther, ← isMember, ids_eq]
    exact List.mem_cons_of_mem _ (idIn memberIn)

/-- No identity is lost. -/
theorem identities_lengthened {before after : Located α}
    (wasBlock : before.written = .block label members)
    (isBlock : after.written = .block label (members ++ added)) :
    before.identities ⊆ after.identities := by
  rw [← ids_written, ← ids_written, wasBlock, isBlock, ids_eq, ids_eq, children,
    children, List.flatMap_append, ← List.cons_append]
  exact List.subset_append_left _ _

end Program

/-! ## The longer block -/

namespace Tree

variable {α : Type} [Scalar α] {old new : Tree α} {before after : Located α}

section

variable (oldBears : old.Bears before) (newBears : new.Bears after)
  {label : Label α} {members added : List (Program (Label α))}
  (wasBlock : before.written = .block label members)
  (isBlock : after.written = .block label (members ++ added))

include oldBears newBears wasBlock isBlock

omit [Scalar α] in
/-- The nodes from before have the same parents. -/
theorem Bears.parentOf_lengthened {id : NodeId}
    (idIn : id ∈ before.written.ids) : old.parentOf? id = new.parentOf? id := by
  rw [Program.ids_eq] at idIn
  rcases List.mem_cons.mp idIn with rfl | isBelow
  · have wasRoot := oldBears.lookup_root
    have isRoot := newBears.lookup_root
    rw [Program.identity_eq, wasBlock, ← oldBears.parentOf_eq] at wasRoot
    rw [Program.identity_eq, isBlock, ← newBears.parentOf_eq] at isRoot
    rw [wasBlock]
    exact wasRoot.trans isRoot.symm
  · obtain ⟨parent, wasParent⟩ := oldBears.exists_parent isBelow
    have isPair := oldBears.mem_parentIds.mpr wasParent
    rw [wasBlock] at isPair
    have stillPair : (id, parent) ∈
        (Program.block label (members ++ added)).parentIds :=
      Program.parentIds_subset (List.subset_append_left _ _) isPair
    rw [← isBlock, newBears.mem_parentIds] at stillPair
    rw [wasParent, stillPair]

/-- A node from before has no patch. -/
theorem Bears.patchesAt_member {later : Located α}
    (wasNode : later.written ∈ before.written.preorder)
    (sameHint : (later.written.label.hint == later.written.label.hint) = true) :
    old.patchesAt new later = [] := by
  have wasId := List.mem_map_of_mem (f := fun node => node.label.id) wasNode
  rw [Program.preorder_written] at wasNode
  obtain ⟨node, nodeIn, same⟩ := List.mem_map.mp wasNode
  have sameId : node.identity = later.identity := by
    rw [Program.identity_eq, Program.identity_eq, same]
  have sameParent := oldBears.parentOf_lengthened newBears wasBlock isBlock wasId
  rw [oldBears.parentOf_eq, newBears.parentOf_eq] at sameParent
  rw [oldBears.patchesAt_of_known nodeIn sameId, ← Program.recorded_written,
    ← Program.recorded_written, same]
  exact RevisionEntry.changes_eq_nil rfl
    (RevisionEntry.sameContent_recorded sameHint _ _) sameParent
    (List.append_nil _).symm fun _ isIn => absurd isIn List.not_mem_nil

/-- A node of a new member is inserted. -/
theorem Bears.patchesAt_added {later : Located α}
    (isAdded : later.identity ∈ added.flatMap Program.ids) :
    old.patchesAt new later =
      [.insert later.identity (new.parentOf? later.identity)] := by
  have distinct := newBears.ids_nodup
  rw [isBlock] at distinct
  have isNew := Program.notMem_ids_of_added distinct isAdded
  rw [← wasBlock, Program.ids_written] at isNew
  exact oldBears.patchesAt_of_new newBears isNew

/-- The block that grows has no patch itself. -/
theorem Bears.patchesAt_lengthened
    (sameHint : (label.hint == label.hint) = true) :
    old.patchesAt new after = [] := by
  have sameId : before.identity = after.identity := by
    rw [Program.identity_eq, Program.identity_eq, wasBlock, isBlock]
    rfl
  have distinct := newBears.ids_nodup
  rw [isBlock] at distinct
  obtain ⟨more, children, apart⟩ :=
    Program.exists_more old.parentIds new.parentIds distinct
  have wasRoot := oldBears.lookup_root
  have isRoot := newBears.lookup_root
  rw [Program.identity_eq, wasBlock] at wasRoot
  rw [Program.identity_eq, isBlock] at isRoot
  rw [oldBears.patchesAt_of_known before.self_mem_preorder sameId,
    ← Program.recorded_written, ← Program.recorded_written, wasBlock, isBlock]
  refine RevisionEntry.changes_eq_nil rfl ?_ (wasRoot.trans isRoot.symm) children
    apart
  simp [RevisionEntry.sameContent, Program.recorded, Program.statementKind?,
    Program.patterns, Program.label, sameHint]

/-- A block that grows differs by one insertion for every node of its new members,
in their order. -/
theorem Bears.diff_lengthened
    (sameHint : ∀ label ∈ after.written.labels, (label.hint == label.hint) = true) :
    old.diff new = (added.flatMap Program.ids).map fun id =>
      .insert id (new.parentOf? id) := by
  have children : after.children.map Program.written = members ++ added := by
    rw [← Program.children_written, isBlock]
    rfl
  obtain ⟨kept, grown, isSplit, areMembers, areAdded⟩ :=
    List.map_eq_append_iff.mp children
  have listed : after.preorder = after ::
      (kept.flatMap Program.preorder ++ grown.flatMap Program.preorder) := by
    rw [Program.preorder_eq, isSplit, List.flatMap_append]
  have addedIds : added.flatMap Program.ids =
      (grown.flatMap Program.preorder).map Program.identity := by
    rw [← areAdded, List.flatMap_map, List.map_flatMap]
    exact List.flatMap_congr fun node _ => node.ids_written
  have root : old.patchesAt new after = [] := by
    refine oldBears.patchesAt_lengthened newBears wasBlock isBlock ?_
    apply sameHint label
    rw [isBlock]
    exact Program.label_mem_labels (.block label (members ++ added))
  have unchanged : (kept.flatMap Program.preorder).flatMap (old.patchesAt new) =
      [] := by
    rw [List.flatMap_eq_nil_iff]
    intro later laterIn
    obtain ⟨child, childIn, inChild⟩ := List.mem_flatMap.mp laterIn
    have isMember : child.written ∈ before.written.children := by
      rw [wasBlock, ← areMembers]
      exact List.mem_map_of_mem childIn
    have wasNode : later.written ∈ before.written.preorder := by
      apply Program.mem_preorder_of_child isMember
      rw [Program.preorder_written]
      exact List.mem_map_of_mem inChild
    apply oldBears.patchesAt_member newBears wasBlock isBlock wasNode
    apply sameHint
    rw [Program.labels, Program.preorder_written, listed]
    exact List.mem_map_of_mem (List.mem_map_of_mem
      (List.mem_cons_of_mem _ (List.mem_append_left _ laterIn)))
  have inserted : (grown.flatMap Program.preorder).flatMap (old.patchesAt new) =
      (added.flatMap Program.ids).map fun id =>
        .insert id (new.parentOf? id) := by
    rw [addedIds, List.map_map, List.map_eq_flatMap]
    refine List.flatMap_congr fun later laterIn => ?_
    apply oldBears.patchesAt_added newBears wasBlock isBlock
    rw [addedIds]
    exact List.mem_map_of_mem laterIn
  have removed : (before.preorder.filter fun node =>
      node.identity ∉ after.identities) = [] := by
    rw [List.filter_eq_nil_iff]
    intro node nodeIn isGone
    exact of_decide_eq_true isGone
      (Program.identities_lengthened wasBlock isBlock (List.mem_map_of_mem nodeIn))
  rw [oldBears.diff_eq newBears, listed, List.flatMap_cons, List.flatMap_append,
    root, unchanged, inserted, removed]
  simp

end

end Tree

end Flowchart
