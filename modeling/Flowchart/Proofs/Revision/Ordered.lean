import Flowchart.Proofs.Revision.Difference

/-!
# The order of patches

Patches come in the order of the nodes at which they are found.  A child that is
moved among its siblings is found at its parent, so it may be told of before a
node that the walk meets earlier.
-/

namespace Flowchart

/-! ## What the order is -/

namespace Patch

/-- Whether the node is only in the old tree. -/
def isRemoval : Patch → Bool
  | .remove _ => true
  | _ => false

end Patch

namespace Tree

variable {α : Type}

/-- The place of an identity among those that the walk meets. -/
def position (tree : Tree α) (id : NodeId) : Nat := tree.identities.idxOf id

/-- The patches for the nodes of the new tree. -/
def additions [Scalar α] (old new : Tree α) : List Patch :=
  (old.diff new).filter fun patch => !patch.isRemoval

/-- Removals come last and in the order of the old tree.  All other patches come
in the order of the nodes at which they are found; the nodes that they name are
in this order unless something is found between a parent and a child of it that
is moved. -/
structure PatchesInOrder [Scalar α] (old new : Tree α) : Prop where
  removalsLast : (old.diff new).Pairwise fun patch later =>
    patch.isRemoval = true → later.isRemoval = true
  removals : ((old.diff new).filter Patch.isRemoval).Pairwise fun patch later =>
    old.position patch.id < old.position later.id
  found : (old.additions new).Pairwise fun patch later =>
    new.position patch.foundAt ≤ new.position later.foundAt
  named : ((old.additions new).Pairwise fun patch later =>
      new.position patch.id ≤ new.position later.id) ↔
    ∀ id parent, old.Tells new (.move id (some parent) (some parent)) →
      ∀ patch, old.Tells new patch →
        ¬ (new.position parent < new.position patch.foundAt ∧
          new.position patch.foundAt < new.position id)

end Tree

/-! ## Ordered lists -/

theorem pairwise_idxOf_lt {κ : Type} [DecidableEq κ] {items : List κ}
    (distinct : items.Nodup) :
    items.Pairwise fun first second => items.idxOf first < items.idxOf second := by
  rw [List.pairwise_iff_getElem]
  intro first second firstLt secondLt isBefore
  rwa [distinct.idxOf_getElem, distinct.idxOf_getElem]

/-- Of two items of an ordered list one comes first. -/
theorem pairwise_either {β : Type} {related : β → β → Prop} {items : List β}
    (ordered : items.Pairwise related) {first second : β}
    (firstIn : first ∈ items) (secondIn : second ∈ items)
    (different : first ≠ second) : related first second ∨ related second first := by
  have symmetric : Std.Symm fun left right =>
      related left right ∨ related right left := ⟨fun _ _ => Or.symm⟩
  have either : items.Pairwise fun left right =>
      related left right ∨ related right left := ordered.imp Or.inl
  exact either.forall firstIn secondIn different

namespace Patch

theorem foundAt_move (id parent : NodeId) :
    (Patch.move id (some parent) (some parent)).foundAt = parent :=
  if_pos rfl

end Patch

/-! ## Places in a program -/

namespace Program

variable {L : Type}

/-- Between a node and a child of it are earlier children with all that is below
them. -/
theorem exists_between {program node child : Program L}
    (nodeIn : node ∈ program.preorder) (childIn : child ∈ node.children) :
    ∃ before between after,
      program.preorder = before ++ node :: (between ++ child :: after) ∧
        ∀ inner ∈ between, ∀ lower ∈ inner.children, lower ∈ between := by
  obtain ⟨front, back, isPart⟩ := preorder_isInfixOf nodeIn
  obtain ⟨earlier, later, isSplit⟩ := List.append_of_mem childIn
  refine ⟨front, earlier.flatMap preorder,
    child.children.flatMap preorder ++ later.flatMap preorder ++ back, ?_, ?_⟩
  · rw [← isPart, preorder_eq node, isSplit, List.flatMap_append,
      List.flatMap_cons, preorder_eq child]
    simp
  · intro inner innerIn lower lowerIn
    obtain ⟨sibling, siblingIn, inSibling⟩ := List.mem_flatMap.mp innerIn
    exact List.mem_flatMap.mpr ⟨sibling, siblingIn,
      mem_preorder_trans inSibling (child_mem_preorder lowerIn)⟩

end Program

namespace Tree

variable {α : Type} {tree : Tree α} {program : Located α}

theorem Bears.pairwise_position (bears : tree.Bears program) :
    program.preorder.Pairwise fun first second =>
      tree.position first.identity < tree.position second.identity := by
  have ordered := pairwise_idxOf_lt bears.identitiesNodup
  rw [Program.identities, List.pairwise_map] at ordered
  unfold position
  rwa [bears.identities_eq]

section

variable {node child : Located α} (bears : tree.Bears program)
  (nodeIn : node ∈ program.preorder) (childIn : child ∈ node.children)

include bears nodeIn childIn

theorem Bears.position_lt_child :
    tree.position node.identity < tree.position child.identity := by
  obtain ⟨before, between, after, isSplit, -⟩ :=
    Program.exists_between nodeIn childIn
  have ordered := bears.pairwise_position
  rw [isSplit, List.pairwise_append, List.pairwise_cons] at ordered
  exact ordered.2.1.1 child (by simp)

/-- What is met between a node and a child of it has its children there too. -/
theorem Bears.position_lt_of_between {inner lower : Located α}
    (innerIn : inner ∈ program.preorder)
    (afterNode : tree.position node.identity < tree.position inner.identity)
    (beforeChild : tree.position inner.identity < tree.position child.identity)
    (lowerIn : lower ∈ inner.children) :
    tree.position lower.identity < tree.position child.identity := by
  obtain ⟨before, between, after, isSplit, closed⟩ :=
    Program.exists_between nodeIn childIn
  have ordered := bears.pairwise_position
  rw [isSplit] at ordered innerIn
  simp only [List.pairwise_append, List.pairwise_cons] at ordered
  obtain ⟨-, ⟨-, -, ⟨afterChild, -⟩, beforeLater⟩, beforeRest⟩ := ordered
  have isBetween : inner ∈ between := by
    rcases List.mem_append.mp innerIn with isBefore | isLater
    · have := beforeRest inner isBefore node List.mem_cons_self
      omega
    rcases List.mem_cons.mp isLater with rfl | isLater
    · omega
    rcases List.mem_append.mp isLater with isBetween | isLater
    · exact isBetween
    rcases List.mem_cons.mp isLater with rfl | isLater
    · omega
    · have := afterChild inner isLater
      omega
  exact beforeLater lower (closed inner isBetween lower lowerIn) child
    List.mem_cons_self

end

end Tree

/-! ## Patches at one node -/

namespace RevisionEntry

variable {α : Type} [Scalar α]

/-- What is told of a node itself comes before the moves of its children. -/
theorem exists_changes_eq (before after : RevisionEntry α) :
    ∃ own, before.changes after =
        own ++ reordered after.id before.children after.children ∧
      ∀ patch ∈ own, patch.id = after.id := by
  refine ⟨_, rfl, fun patch patchIn => ?_⟩
  rcases List.mem_append.mp patchIn with isContent | isPlace
  · split at isContent
    · rw [List.mem_singleton.mp isContent]
      rfl
    split at isContent
    · rw [List.mem_singleton.mp isContent]
      rfl
    · cases isContent
  · split at isPlace
    · rw [List.mem_singleton.mp isPlace]
      rfl
    · cases isPlace

end RevisionEntry

namespace Tree

variable {α : Type} [Scalar α] {old new : Tree α} {before after : Located α}
  (oldBears : old.Bears before) (newBears : new.Bears after)

include oldBears newBears

/-- A patch found at a node names it or, as it is moved, a child of it. -/
theorem Bears.id_of_mem_patchesAt {later : Located α} {patch : Patch}
    (listed : patch ∈ old.patchesAt new later) :
    patch.isRemoval = false ∧ (patch.id = later.identity ∨
      patch = .move patch.id (some later.identity) (some later.identity) ∧
        ∃ child ∈ later.children, child.identity = patch.id) := by
  by_cases known : later.identity ∈ before.identities
  · obtain ⟨node, nodeIn, same⟩ := List.mem_map.mp known
    rw [oldBears.patchesAt_of_known nodeIn same] at listed
    rcases RevisionEntry.mem_changes.mp listed with
      ⟨-, rfl⟩ | ⟨-, -, rfl⟩ | ⟨-, rfl⟩ | listed
    · exact ⟨rfl, .inl rfl⟩
    · exact ⟨rfl, .inl rfl⟩
    · exact ⟨rfl, .inl rfl⟩
    · obtain ⟨isMove, isShared⟩ := RevisionEntry.eq_move_of_mem_reordered listed
      have isChild : patch.id ∈ later.childPlaces.map Prod.snd :=
        (RevisionEntry.mem_shared.mp isShared).1
      rw [Program.map_snd_childPlaces] at isChild
      exact ⟨by rw [isMove]; rfl, .inr ⟨isMove, List.mem_map.mp isChild⟩⟩
  · rw [oldBears.patchesAt_of_new newBears known, List.mem_singleton] at listed
    rw [listed]
    exact ⟨rfl, .inl rfl⟩

/-- No patch found at a node names an earlier one. -/
theorem Bears.position_le_of_mem_patchesAt {later : Located α}
    (laterIn : later ∈ after.preorder) {patch : Patch}
    (listed : patch ∈ old.patchesAt new later) :
    new.position later.identity ≤ new.position patch.id := by
  obtain ⟨-, isLater | ⟨-, child, childIn, isChild⟩⟩ :=
    oldBears.id_of_mem_patchesAt newBears listed
  · rw [isLater]
  · rw [← isChild]
    exact (newBears.position_lt_child laterIn childIn).le

/-- The patches found at one node come in the order of what they name. -/
theorem Bears.pairwise_patchesAt {later : Located α}
    (laterIn : later ∈ after.preorder) :
    (old.patchesAt new later).Pairwise fun first second =>
      new.position first.id ≤ new.position second.id := by
  by_cases known : later.identity ∈ before.identities
  · obtain ⟨node, nodeIn, same⟩ := List.mem_map.mp known
    have inOrder : (later.childPlaces.map Prod.snd).Pairwise fun first second =>
        new.position first ≤ new.position second := by
      rw [Program.map_snd_childPlaces, List.pairwise_map]
      have sublist : later.children.Sublist after.preorder :=
        later.children_sublist_preorder.trans (Program.preorder_sublist laterIn)
      exact (newBears.pairwise_position.sublist sublist).imp Nat.le_of_lt
    obtain ⟨own, isSplit, ownIds⟩ := RevisionEntry.exists_changes_eq
      (node.revisionEntry old.parentIds) (later.revisionEntry new.parentIds)
    rw [← oldBears.patchesAt_of_known nodeIn same] at isSplit
    have ownAt : ∀ patch ∈ own,
        new.position patch.id = new.position later.identity :=
      fun patch patchIn => congrArg _ (ownIds patch patchIn)
    rw [isSplit, List.pairwise_append]
    refine ⟨?_, RevisionEntry.pairwise_reordered (oldBears.places_distinct nodeIn)
      (newBears.places_distinct laterIn) inOrder, ?_⟩
    · refine List.pairwise_of_forall_mem_list
        fun first firstIn second secondIn => ?_
      rw [ownAt first firstIn, ownAt second secondIn]
    · intro first firstIn second secondIn
      rw [ownAt first firstIn]
      refine oldBears.position_le_of_mem_patchesAt newBears laterIn ?_
      rw [isSplit]
      exact List.mem_append_right _ secondIn
  · rw [oldBears.patchesAt_of_new newBears known]
    exact List.pairwise_singleton _ _

/-! ## All patches -/

theorem Bears.additions_eq :
    old.additions new = after.preorder.flatMap (old.patchesAt new) := by
  rw [additions, oldBears.diff_eq newBears, List.filter_append,
    List.filter_eq_self.mpr, List.filter_eq_nil_iff.mpr, List.append_nil]
  · intro patch patchIn
    obtain ⟨node, -, rfl⟩ := List.mem_map.mp patchIn
    simp [Patch.isRemoval]
  · intro patch patchIn
    obtain ⟨later, -, listed⟩ := List.mem_flatMap.mp patchIn
    simp [(oldBears.id_of_mem_patchesAt newBears listed).1]

theorem Bears.removals_eq :
    (old.diff new).filter Patch.isRemoval =
      (before.preorder.filter fun node => node.identity ∉ after.identities).map
        fun node => .remove node.identity := by
  rw [oldBears.diff_eq newBears, List.filter_append, List.filter_eq_nil_iff.mpr,
    List.nil_append, List.filter_eq_self.mpr]
  · intro patch patchIn
    obtain ⟨node, -, rfl⟩ := List.mem_map.mp patchIn
    rfl
  · intro patch patchIn
    obtain ⟨later, -, listed⟩ := List.mem_flatMap.mp patchIn
    simp [(oldBears.id_of_mem_patchesAt newBears listed).1]

theorem Bears.diff_eq_append :
    old.diff new = old.additions new ++ (old.diff new).filter Patch.isRemoval := by
  rw [oldBears.additions_eq newBears, oldBears.removals_eq newBears]
  exact oldBears.diff_eq newBears

theorem Bears.pairwise_removals :
    ((old.diff new).filter Patch.isRemoval).Pairwise fun patch later =>
      old.position patch.id < old.position later.id := by
  rw [oldBears.removals_eq newBears, List.pairwise_map]
  exact oldBears.pairwise_position.filter _

theorem Bears.pairwise_found :
    (old.additions new).Pairwise fun patch later =>
      new.position patch.foundAt ≤ new.position later.foundAt := by
  rw [oldBears.additions_eq newBears, List.pairwise_flatMap]
  constructor
  · intro later laterIn
    refine List.pairwise_of_forall_mem_list fun _ firstIn _ secondIn => ?_
    rw [foundAt_of_mem_patchesAt firstIn, foundAt_of_mem_patchesAt secondIn]
  · refine newBears.pairwise_position.imp fun isBefore _ firstIn _ secondIn => ?_
    rw [foundAt_of_mem_patchesAt firstIn, foundAt_of_mem_patchesAt secondIn]
    exact isBefore.le

/-- What is told and does not say that a node is gone is found at a node. -/
theorem Bears.exists_found {patch : Patch} (told : old.Tells new patch) :
    patch ∈ old.diff new ∧ ((∃ id, patch = .remove id ∧ id ∉ new.identities) ∨
      patch ∈ old.additions new ∧
        ∃ later ∈ after.preorder, patch ∈ old.patchesAt new later) := by
  have listed := (oldBears.mem_diff_iff newBears).mpr told
  refine ⟨listed, ?_⟩
  cases isRemoval : patch.isRemoval with
  | true =>
      cases patch with
      | remove id => exact .inl ⟨id, rfl, told.2⟩
      | _ => cases isRemoval
  | false =>
      have isAdded : patch ∈ old.additions new :=
        List.mem_filter.mpr ⟨listed, by rw [isRemoval]; rfl⟩
      refine .inr ⟨isAdded, ?_⟩
      rwa [oldBears.additions_eq newBears, List.mem_flatMap] at isAdded

/-- If nothing is found between a parent and a child of it that is moved, what
patches name is in order. -/
theorem Bears.pairwise_named
    (quiet : ∀ id parent, old.Tells new (.move id (some parent) (some parent)) →
      ∀ patch, old.Tells new patch →
        ¬ (new.position parent < new.position patch.foundAt ∧
          new.position patch.foundAt < new.position id)) :
    (old.additions new).Pairwise fun patch later =>
      new.position patch.id ≤ new.position later.id := by
  have told : ∀ {later patch}, later ∈ after.preorder →
      patch ∈ old.patchesAt new later → old.Tells new patch := by
    intro later patch laterIn listed
    rw [← oldBears.mem_diff_iff newBears, oldBears.diff_eq newBears]
    exact List.mem_append_left _ (List.mem_flatMap.mpr ⟨later, laterIn, listed⟩)
  rw [oldBears.additions_eq newBears, List.pairwise_flatMap]
  refine ⟨fun later laterIn => oldBears.pairwise_patchesAt newBears laterIn, ?_⟩
  refine newBears.pairwise_position.imp_of_mem ?_
  intro node later nodeIn laterIn isBefore first firstIn second secondIn
  have notEarlier := oldBears.position_le_of_mem_patchesAt newBears laterIn secondIn
  obtain ⟨-, isNode | ⟨isMove, -⟩⟩ := oldBears.id_of_mem_patchesAt newBears firstIn
  · rw [isNode]
    omega
  · by_contra isEarlier
    have moved := told nodeIn firstIn
    rw [isMove] at moved
    refine quiet _ _ moved second (told laterIn secondIn) ?_
    rw [foundAt_of_mem_patchesAt secondIn]
    omega

/-- What is found between a node and a child of it names a node before the child. -/
theorem Bears.position_id_lt {holder child inner : Located α} {patch : Patch}
    (holderIn : holder ∈ after.preorder) (childIn : child ∈ holder.children)
    (innerIn : inner ∈ after.preorder) (listed : patch ∈ old.patchesAt new inner)
    (afterHolder : new.position holder.identity < new.position inner.identity)
    (beforeChild : new.position inner.identity < new.position child.identity) :
    new.position patch.id < new.position child.identity := by
  obtain ⟨-, isInner | ⟨-, lower, lowerIn, isLower⟩⟩ :=
    oldBears.id_of_mem_patchesAt newBears listed
  · rwa [isInner]
  · rw [← isLower]
    exact newBears.position_lt_of_between holderIn childIn innerIn afterHolder
      beforeChild lowerIn

/-- A patch found between a parent and a child of it that is moved comes after the
move, but names an earlier node. -/
theorem Bears.quiet_of_pairwise_named
    (ordered : (old.additions new).Pairwise fun patch later =>
      new.position patch.id ≤ new.position later.id) {id parent : NodeId}
    (moved : old.Tells new (.move id (some parent) (some parent)))
    {patch : Patch} (told : old.Tells new patch) :
    ¬ (new.position parent < new.position patch.foundAt ∧
      new.position patch.foundAt < new.position id) := by
  rintro ⟨afterParent, beforeChild⟩
  obtain ⟨-, ⟨_, isRemoval, -⟩ | ⟨moveIn, holder, holderIn, moveListed⟩⟩ :=
    oldBears.exists_found newBears moved
  · cases isRemoval
  obtain ⟨-, ⟨_, rfl, isGone⟩ | ⟨patchIn, inner, innerIn, listed⟩⟩ :=
    oldBears.exists_found newBears told
  · -- What is gone has no place, so it is not before anything.
    have noPlace : new.position (Patch.remove _).foundAt = new.identities.length :=
      List.idxOf_eq_length_iff.mpr isGone
    rw [noPlace] at beforeChild
    exact absurd List.idxOf_le_length (Nat.not_le_of_lt beforeChild)
  have atHolder : parent = holder.identity := by
    rw [← foundAt_of_mem_patchesAt moveListed, Patch.foundAt_move]
  have atInner := foundAt_of_mem_patchesAt listed
  rw [atHolder, atInner] at afterParent
  rw [atInner] at beforeChild
  obtain ⟨-, isHolder | ⟨-, child, childIn, isChild⟩⟩ :=
    oldBears.id_of_mem_patchesAt newBears moveListed
  · have isHolder : id = holder.identity := isHolder
    rw [isHolder] at beforeChild
    omega
  have isChild : child.identity = id := isChild
  rw [← isChild] at beforeChild
  have namesEarlier := oldBears.position_id_lt newBears holderIn childIn innerIn
    listed afterParent beforeChild
  have both := ordered.and (oldBears.pairwise_found newBears)
  have different : Patch.move id (some parent) (some parent) ≠ patch := by
    rintro rfl
    rw [Patch.foundAt_move, atHolder] at atInner
    rw [atInner] at afterParent
    omega
  rcases pairwise_either both moveIn patchIn different with ⟨first, -⟩ | ⟨-, first⟩
  · rw [show (Patch.move id (some parent) (some parent)).id = child.identity
      from isChild.symm] at first
    omega
  · rw [Patch.foundAt_move, atHolder, atInner] at first
    omega

omit oldBears newBears

/-! ## Trees that pass validation -/

/-- Patches between trees that pass validation are in order as far as nothing is
found between a parent and a child of it that is moved. -/
theorem diff_in_order {old new : Tree α} {oldLimit newLimit : Nat}
    (oldValid : old.validate oldLimit = .ok ())
    (newValid : new.validate newLimit = .ok ()) : old.PatchesInOrder new := by
  obtain ⟨before, oldStores⟩ := exists_stores oldValid
  obtain ⟨after, newStores⟩ := exists_stores newValid
  have oldBears := oldStores.toBears
  have newBears := newStores.toBears
  refine ⟨?_, oldBears.pairwise_removals newBears, oldBears.pairwise_found newBears,
    fun ordered id parent moved patch told =>
      oldBears.quiet_of_pairwise_named newBears ordered moved told,
    oldBears.pairwise_named newBears⟩
  rw [oldBears.diff_eq_append newBears, List.pairwise_append]
  refine ⟨?_, ?_, ?_⟩
  · refine List.pairwise_of_forall_mem_list fun _ patchIn _ _ isRemoval => ?_
    have isAdded := (List.mem_filter.mp patchIn).2
    rw [isRemoval] at isAdded
    cases isAdded
  · refine List.pairwise_of_forall_mem_list fun _ _ _ laterIn _ => ?_
    exact (List.mem_filter.mp laterIn).2
  · intro patch _ later laterIn _
    exact (List.mem_filter.mp laterIn).2

/-- A block with a step and a block, in which there is one more step. -/
def stepAndBlock (members : List Handle) (text : String) : Tree Rat :=
  ⟨#[⟨⟨"root", "", none⟩, .block members⟩,
    ⟨⟨"c", "x", none⟩, .statement .expression⟩,
    ⟨⟨"w", "", none⟩, .block [3]⟩,
    ⟨⟨"t", text, none⟩, .statement .expression⟩], some 0⟩

theorem diff_in_order_stepAndBlock :
    (stepAndBlock [1, 2] "a").validate 64 = .ok () ∧
      (stepAndBlock [2, 1] "b").validate 64 = .ok () ∧
      (stepAndBlock [1, 2] "a").PatchesInOrder (stepAndBlock [2, 1] "b") := by
  have oldValid : (stepAndBlock [1, 2] "a").validate 64 = .ok () := by cbv
  have newValid : (stepAndBlock [2, 1] "b").validate 64 = .ok () := by cbv
  exact ⟨oldValid, newValid, diff_in_order oldValid newValid⟩

/-- Where the step and the block change places and the text in the block changes
as well, the move of the step is told before the change of the text. -/
theorem not_all_patches_named_in_order :
    ¬ ∀ old new : Tree Rat, old.validate 64 = .ok () → new.validate 64 = .ok () →
      (old.additions new).Pairwise fun patch later =>
        new.position patch.id ≤ new.position later.id := by
  intro all
  have inOrder := all (stepAndBlock [1, 2] "a") (stepAndBlock [2, 1] "b")
    (by cbv) (by cbv)
  have patches : (stepAndBlock [1, 2] "a").additions (stepAndBlock [2, 1] "b") =
      [.move "w" (some "root") (some "root"), .move "c" (some "root") (some "root"),
        .update "t"] := by
    cbv
  have inBlock : (stepAndBlock [2, 1] "b").position "t" = 2 := by cbv
  have afterBlock : (stepAndBlock [2, 1] "b").position "c" = 3 := by cbv
  rw [patches] at inOrder
  simp only [List.pairwise_cons, List.mem_cons, Patch.id] at inOrder
  have notLater := inOrder.2.1 (.update "t") (.inl rfl)
  rw [inBlock, afterBlock] at notLater
  omega

end Tree

end Flowchart
