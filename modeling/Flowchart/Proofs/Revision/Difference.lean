import Flowchart.Proofs.Revision.Lookup

/-!
# What patches tell

A patch tells something of two revisions.  Between trees that are well formed
the patches are all that can be told, each of them once.
-/

namespace Flowchart

/-! ## What there is to tell -/

namespace Node

variable {α : Type} [Scalar α]

/-- Two nodes have the same text, ask for the same size, and are statements of
one kind or have arms with the same patterns. -/
def SaysSame (node later : Node α) : Prop :=
  node.text = later.text ∧ (node.hint == later.hint) = true ∧
    node.construct.statementKind? = later.construct.statementKind? ∧
    node.construct.patterns = later.construct.patterns

end Node

/-- A child is in one branch of a decision first and in the other one then. -/
def SwitchesBranch (before after : List (SlotName × NodeId)) (id : NodeId) :
    Prop :=
  ((.consequent, id) ∈ before ∧ (.alternative, id) ∈ after) ∨
    ((.alternative, id) ∈ before ∧ (.consequent, id) ∈ after)

namespace Tree

variable {α : Type}

/-- The children of an identity that another revision has below it too. -/
def keptChildren (tree other : Tree α) (parent : NodeId) : List NodeId :=
  ((tree.childrenOf parent).map Prod.snd).filter fun id =>
    other.parentOf? id = some parent

/-- A child stands elsewhere among those that stay, or in the other branch. -/
def Rearranges (old new : Tree α) (parent id : NodeId) : Prop :=
  (old.keptChildren new parent).idxOf id ≠
      (new.keptChildren old parent).idxOf id ∨
    SwitchesBranch (old.childrenOf parent) (new.childrenOf parent) id

/-- What a patch says of two revisions is so. -/
def Tells [Scalar α] (old new : Tree α) : Patch → Prop
  | .insert id parent =>
      id ∈ new.identities ∧ id ∉ old.identities ∧ parent = new.parentOf? id
  | .remove id => id ∈ old.identities ∧ id ∉ new.identities
  | .restructure id =>
      ∃ node later, old.named? id = some node ∧ new.named? id = some later ∧
        node.tag ≠ later.tag
  | .update id =>
      ∃ node later, old.named? id = some node ∧ new.named? id = some later ∧
        node.tag = later.tag ∧ ¬ node.SaysSame later
  | .move id source target =>
      id ∈ old.identities ∧ id ∈ new.identities ∧
        source = old.parentOf? id ∧ target = new.parentOf? id ∧
        (source ≠ target ∨ ∃ parent, source = some parent ∧
          target = some parent ∧ old.Rearranges new parent id)

end Tree

/-! ## Two lists of children -/

namespace RevisionEntry

variable {parent id : NodeId} {old new : List (SlotName × NodeId)}

theorem switchedBranch_iff {before after : SlotName} :
    switchedBranch before after = true ↔
      (before = .consequent ∧ after = .alternative) ∨
        (before = .alternative ∧ after = .consequent) := by
  unfold switchedBranch
  split <;> simp_all

/-- The identities of the children of a list that another list has too. -/
def shared (own other : List (SlotName × NodeId)) : List NodeId :=
  (own.map Prod.snd).filter fun id => id ∈ other.map Prod.snd

theorem mem_shared {own other : List (SlotName × NodeId)} :
    id ∈ shared own other ↔ id ∈ own.map Prod.snd ∧ id ∈ other.map Prod.snd := by
  rw [shared, List.mem_filter, decide_eq_true_iff]

/-- The children of a list that another list has too. -/
def kept (own other : List (SlotName × NodeId)) : List (SlotName × NodeId) :=
  own.filter fun child => other.any fun kept => decide (kept.2 = child.2)

theorem reordered_eq (parent : NodeId) (old new : List (SlotName × NodeId)) :
    reordered parent old new =
      ((kept new old).zip (kept old new)).filterMap fun pair =>
        if pair.1.2 ≠ pair.2.2 || switchedBranch pair.2.1 pair.1.1 then
          some (.move pair.1.2 (some parent) (some parent))
        else none :=
  rfl

theorem map_snd_kept (own other : List (SlotName × NodeId)) :
    (kept own other).map Prod.snd = shared own other := by
  rw [kept, shared, List.filter_map]
  congr 1
  refine List.filter_congr fun child _ => ?_
  rw [Bool.eq_iff_iff, List.any_eq_true, Function.comp_apply, decide_eq_true_iff,
    List.mem_map]
  simp only [decide_eq_true_eq]

theorem mem_of_mem_kept {own other : List (SlotName × NodeId)}
    {child : SlotName × NodeId} (childIn : child ∈ kept own other) :
    child ∈ own :=
  (List.mem_filter.mp childIn).1

/-- As many children of either list are in the other one. -/
theorem length_kept (oldDistinct : (old.map Prod.snd).Nodup)
    (newDistinct : (new.map Prod.snd).Nodup) :
    (kept new old).length = (kept old new).length := by
  have permuted : (shared new old).Perm (shared old new) := by
    unfold shared
    rw [List.perm_ext_iff_of_nodup (newDistinct.filter _) (oldDistinct.filter _)]
    intro id
    simp only [List.mem_filter, decide_eq_true_eq, and_comm]
  have sameLength := permuted.length_eq
  rwa [← map_snd_kept, ← map_snd_kept, List.length_map, List.length_map]
    at sameLength

/-- A child has one place only. -/
theorem place_unique {children : List (SlotName × NodeId)}
    (distinct : (children.map Prod.snd).Nodup) {first second : SlotName}
    (firstIn : (first, id) ∈ children) (secondIn : (second, id) ∈ children) :
    first = second :=
  congrArg Prod.fst (List.inj_on_of_nodup_map distinct firstIn secondIn rfl)

/-! Two lists are compared rank by rank: children that face each other have one
identity exactly if it has one rank in both lists. -/

section

variable {left right : List (SlotName × NodeId)}

theorem same_iff_of_facing (leftDistinct : (left.map Prod.snd).Nodup)
    (rightDistinct : (right.map Prod.snd).Nodup)
    {first second : SlotName × NodeId} (facing : (first, second) ∈ left.zip right)
    (inRight : first.2 ∈ right.map Prod.snd) :
    first.2 = second.2 ↔
      (right.map Prod.snd).idxOf first.2 = (left.map Prod.snd).idxOf first.2 := by
  obtain ⟨rank, atRank⟩ := List.mem_iff_getElem?.mp facing
  obtain ⟨leftAt, rightAt⟩ := List.getElem?_zip_eq_some.mp atRank
  have idAt : ∀ {children : List (SlotName × NodeId)} {child : SlotName × NodeId},
      children[rank]? = some child →
      (children.map Prod.snd)[rank]? = some child.2 := by
    intro children child isChild
    rw [List.getElem?_map, isChild]
    rfl
  obtain ⟨leftLt, leftId⟩ := List.getElem?_eq_some_iff.mp (idAt leftAt)
  obtain ⟨rightLt, rightId⟩ := List.getElem?_eq_some_iff.mp (idAt rightAt)
  have leftRank : (left.map Prod.snd).idxOf first.2 = rank := by
    rw [← leftId, leftDistinct.idxOf_getElem]
  rw [leftRank]
  constructor
  · intro same
    rw [same, ← rightId, rightDistinct.idxOf_getElem]
  · intro sameRank
    have found := List.getElem_idxOf (List.idxOf_lt_length_of_mem inRight)
    simp only [sameRank] at found
    rw [← found, rightId]

theorem exists_facing (sameLength : left.length = right.length)
    (idIn : id ∈ left.map Prod.snd) :
    ∃ first second, (first, second) ∈ left.zip right ∧ first.2 = id := by
  obtain ⟨first, firstIn, rfl⟩ := List.mem_map.mp idIn
  obtain ⟨rank, inside, rfl⟩ := List.mem_iff_getElem.mp firstIn
  have insideRight : rank < right.length := sameLength ▸ inside
  refine ⟨left[rank], right[rank], List.mem_iff_getElem?.mpr ⟨rank, ?_⟩, rfl⟩
  exact List.getElem?_zip_eq_some.mpr
    ⟨List.getElem?_eq_getElem inside, List.getElem?_eq_getElem insideRight⟩

end

/-- Only moves below the parent are listed. -/
theorem eq_move_of_mem_reordered {patch : Patch}
    (listed : patch ∈ reordered parent old new) :
    patch = .move patch.id (some parent) (some parent) ∧
      patch.id ∈ shared new old := by
  rw [reordered_eq] at listed
  obtain ⟨pair, pairIn, isPatch⟩ := List.mem_filterMap.mp listed
  rw [Option.ite_none_right_eq_some, Option.some.injEq] at isPatch
  obtain ⟨-, rfl⟩ := isPatch
  refine ⟨rfl, ?_⟩
  rw [← map_snd_kept]
  exact List.mem_map_of_mem (List.of_mem_zip pairIn).1

section

variable (oldDistinct : (old.map Prod.snd).Nodup)
  (newDistinct : (new.map Prod.snd).Nodup)

include oldDistinct newDistinct

/-- The moves are those of the children that both lists have and that have
another rank among these, or another branch. -/
theorem move_mem_reordered :
    Patch.move id (some parent) (some parent) ∈ reordered parent old new ↔
      id ∈ shared new old ∧
        ((shared old new).idxOf id ≠ (shared new old).idxOf id ∨
          SwitchesBranch old new id) := by
  have sameLength := length_kept oldDistinct newDistinct
  have oldNodup : (shared old new).Nodup := oldDistinct.filter _
  have newNodup : (shared new old).Nodup := newDistinct.filter _
  have inOld : ∀ {id}, id ∈ shared new old → id ∈ shared old new :=
    fun isShared => mem_shared.mpr (mem_shared.mp isShared).symm
  rw [reordered_eq, List.mem_filterMap]
  rw [← map_snd_kept] at oldNodup newNodup
  have same_iff : ∀ first second, (first, second) ∈
        (kept new old).zip (kept old new) →
      (first.2 = second.2 ↔
        (shared old new).idxOf first.2 = (shared new old).idxOf first.2) := by
    intro first second facing
    rw [← map_snd_kept, ← map_snd_kept]
    refine same_iff_of_facing newNodup oldNodup facing ?_
    rw [map_snd_kept]
    refine inOld ?_
    rw [← map_snd_kept]
    exact List.mem_map_of_mem (List.of_mem_zip facing).1
  constructor
  · rintro ⟨⟨⟨newSlot, newId⟩, oldSlot, oldId⟩, facing, isPatch⟩
    rw [Option.ite_none_right_eq_some, Option.some.injEq, Patch.move.injEq,
      Bool.or_eq_true, decide_eq_true_eq] at isPatch
    obtain ⟨differs, rfl, -⟩ := isPatch
    obtain ⟨newIn, oldIn⟩ := List.of_mem_zip facing
    refine ⟨map_snd_kept new old ▸ List.mem_map_of_mem newIn, ?_⟩
    by_cases sameId : newId = oldId
    · obtain rfl := sameId
      have switched := differs.resolve_left (not_not.mpr rfl)
      have before := mem_of_mem_kept oldIn
      have after := mem_of_mem_kept newIn
      rcases switchedBranch_iff.mp switched with ⟨rfl, rfl⟩ | ⟨rfl, rfl⟩
      · exact .inr (.inl ⟨before, after⟩)
      · exact .inr (.inr ⟨before, after⟩)
    · exact .inl (mt (same_iff _ _ facing).mpr sameId)
  · rintro ⟨isShared, rearranged⟩
    obtain ⟨⟨newSlot, newId⟩, ⟨oldSlot, oldId⟩, facing, rfl⟩ :=
      exists_facing sameLength (map_snd_kept new old ▸ isShared)
    refine ⟨_, facing, ?_⟩
    rw [if_pos]
    rw [Bool.or_eq_true, decide_eq_true_eq]
    by_cases sameId : newId = oldId
    · obtain rfl := sameId
      obtain ⟨newIn, oldIn⟩ := List.of_mem_zip facing
      have oldMember := mem_of_mem_kept oldIn
      have newMember := mem_of_mem_kept newIn
      refine .inr (switchedBranch_iff.mpr ?_)
      rcases rearranged with otherRank | ⟨before, after⟩ | ⟨before, after⟩
      · exact absurd ((same_iff _ _ facing).mp rfl) otherRank
      · exact .inl ⟨place_unique oldDistinct oldMember before,
          place_unique newDistinct newMember after⟩
      · exact .inr ⟨place_unique oldDistinct oldMember before,
          place_unique newDistinct newMember after⟩
    · exact .inl sameId

/-- Moves are listed as the children are that they name. -/
theorem pairwise_reordered {related : NodeId → NodeId → Prop}
    (ordered : (new.map Prod.snd).Pairwise related) :
    (reordered parent old new).Pairwise fun first second =>
      related first.id second.id := by
  have sameLength := length_kept oldDistinct newDistinct
  have pairsOrdered : (((kept new old).zip (kept old new)).map
      fun pair => pair.1.2).Pairwise related := by
    have listed := List.map_map (f := Prod.fst) (g := Prod.snd)
      (l := (kept new old).zip (kept old new))
    rw [List.map_fst_zip sameLength.le, map_snd_kept] at listed
    exact listed ▸ ordered.filter _
  rw [reordered_eq, List.pairwise_filterMap]
  rw [List.pairwise_map] at pairsOrdered
  refine pairsOrdered.imp fun isRelated first isFirst second isSecond => ?_
  rw [Option.ite_none_right_eq_some, Option.some.injEq] at isFirst isSecond
  rw [← isFirst.2, ← isSecond.2]
  exact isRelated

theorem reordered_nodup : (reordered parent old new).Nodup :=
  (pairwise_reordered oldDistinct newDistinct newDistinct).imp
    fun differs same => differs (congrArg Patch.id same)

end

/-! ## One node in both revisions -/

variable {α : Type} [Scalar α]

theorem mem_changes {before after : RevisionEntry α} {patch : Patch} :
    patch ∈ before.changes after ↔
      (before.tag ≠ after.tag ∧ patch = .restructure after.id) ∨
      (before.tag = after.tag ∧ ¬ before.sameContent after = true ∧
        patch = .update after.id) ∨
      (before.parent ≠ after.parent ∧
        patch = .move after.id before.parent after.parent) ∨
      patch ∈ reordered after.id before.children after.children := by
  unfold changes
  by_cases sameTag : before.tag = after.tag <;>
    by_cases sameContent : before.sameContent after = true <;>
    by_cases sameParent : before.parent = after.parent <;>
    simp [sameTag, sameContent, sameParent]

end RevisionEntry

namespace Patch

/-- The identity of the node at which a patch is found: a node that is moved
among its siblings is found at their parent. -/
def foundAt : Patch → NodeId
  | .move id source target =>
      if source = target then target.getD id else id
  | patch => patch.id

end Patch

namespace RevisionEntry

variable {α : Type} [Scalar α] {before after : RevisionEntry α}

theorem foundAt_of_mem_changes {patch : Patch}
    (listed : patch ∈ before.changes after) : patch.foundAt = after.id := by
  rcases mem_changes.mp listed with
    ⟨-, rfl⟩ | ⟨-, -, rfl⟩ | ⟨differs, rfl⟩ | listed
  · rfl
  · rfl
  · exact if_neg differs
  · rw [(eq_move_of_mem_reordered listed).1]
    exact if_pos rfl

theorem changes_nodup (oldDistinct : (before.children.map Prod.snd).Nodup)
    (newDistinct : (after.children.map Prod.snd).Nodup) :
    (before.changes after).Nodup := by
  have moved : (reordered after.id before.children after.children).Nodup :=
    reordered_nodup oldDistinct newDistinct
  have notMoved : ∀ patch ∈ reordered after.id before.children after.children,
      ∃ id, patch = .move id (some after.id) (some after.id) :=
    fun patch listed => ⟨_, (eq_move_of_mem_reordered listed).1⟩
  unfold changes
  generalize reordered after.id before.children after.children = moves
    at moved notMoved
  have noRestructure : Patch.restructure after.id ∉ moves := by
    intro listed
    obtain ⟨id, isMove⟩ := notMoved _ listed
    cases isMove
  have noUpdate : Patch.update after.id ∉ moves := by
    intro listed
    obtain ⟨id, isMove⟩ := notMoved _ listed
    cases isMove
  have noMove : before.parent ≠ after.parent →
      Patch.move after.id before.parent after.parent ∉ moves := by
    intro differs listed
    obtain ⟨id, isMove⟩ := notMoved _ listed
    rw [Patch.move.injEq] at isMove
    exact differs (isMove.2.1.trans isMove.2.2.symm)
  by_cases sameTag : before.tag = after.tag <;>
    by_cases sameContent : before.sameContent after = true <;>
    by_cases sameParent : before.parent = after.parent <;>
    simp [sameTag, sameContent, sameParent, moved, noRestructure, noUpdate,
      noMove]

end RevisionEntry

/-! ## Two trees -/

namespace Tree

variable {α : Type} [Scalar α] {old new : Tree α}
  {before after : Located α}

omit [Scalar α] in
theorem Bears.keptChildren_eq {tree other : Tree α}
    {program otherProgram : Located α} (bears : tree.Bears program)
    (otherBears : other.Bears otherProgram)
    {node later : Located α} (nodeIn : node ∈ program.preorder)
    (laterIn : later ∈ otherProgram.preorder)
    (same : node.identity = later.identity) :
    tree.keptChildren other node.identity =
      RevisionEntry.shared node.childPlaces later.childPlaces := by
  rw [keptChildren, bears.childrenOf_eq nodeIn, RevisionEntry.shared]
  refine List.filter_congr fun id _ => ?_
  rw [Program.map_snd_childPlaces later, decide_eq_decide,
    otherBears.parentOf_eq, same, ← otherBears.mem_children_iff laterIn]

/-- The patches that are found at a node of the new revision. -/
def patchesAt (old new : Tree α) (later : Located α) : List Patch :=
  match Keyed.find? RevisionEntry.id (RevisionEntry.ofTree old)
    later.identity with
  | none => [.insert later.identity (new.parentIds.lookup later.identity)]
  | some previous => previous.changes (later.revisionEntry new.parentIds)

theorem foundAt_of_mem_patchesAt {later : Located α} {patch : Patch}
    (listed : patch ∈ old.patchesAt new later) :
    patch.foundAt = later.identity := by
  unfold patchesAt at listed
  split at listed
  · rw [List.mem_singleton.mp listed]
    rfl
  · exact RevisionEntry.foundAt_of_mem_changes listed

omit [Scalar α] in
theorem Bears.places_distinct {tree : Tree α} {program node : Located α}
    (bears : tree.Bears program) (nodeIn : node ∈ program.preorder) :
    (node.childPlaces.map Prod.snd).Nodup := by
  rw [Program.map_snd_childPlaces]
  exact bears.children_distinct nodeIn

section

variable (oldBears : old.Bears before) (newBears : new.Bears after)

include oldBears newBears

theorem Bears.patchesAt_of_new {later : Located α}
    (isNew : later.identity ∉ before.identities) :
    old.patchesAt new later =
      [.insert later.identity (new.parentOf? later.identity)] := by
  rw [patchesAt, oldBears.find_entry_none isNew, newBears.parentOf_eq]

omit newBears in
theorem Bears.patchesAt_of_known {node later : Located α}
    (nodeIn : node ∈ before.preorder) (same : node.identity = later.identity) :
    old.patchesAt new later =
      (node.revisionEntry old.parentIds).changes
        (later.revisionEntry new.parentIds) := by
  rw [patchesAt, ← same, oldBears.find_entry nodeIn]

theorem Bears.diff_eq :
    old.diff new =
      after.preorder.flatMap (old.patchesAt new) ++
        (before.preorder.filter fun node => node.identity ∉ after.identities).map
          fun node => .remove node.identity := by
  have removals : before.preorder.filterMap (fun node =>
        match Keyed.find? RevisionEntry.id (RevisionEntry.ofTree new)
          node.identity with
        | none => some (Patch.remove node.identity)
        | some _ => none) =
      (before.preorder.filter fun node => node.identity ∉ after.identities).map
        fun node => .remove node.identity := by
    rw [← List.filterMap_eq_map, List.filterMap_filter]
    refine List.filterMap_congr fun node _ => ?_
    by_cases known : node.identity ∈ after.identities
    · obtain ⟨later, laterIn, same⟩ := List.mem_map.mp known
      rw [if_neg (by simpa using known), ← same, newBears.find_entry laterIn]
    · rw [if_pos (by simpa using known), newBears.find_entry_none known]
      rfl
  unfold diff
  dsimp only
  rw [newBears.entries_eq] at removals ⊢
  rw [oldBears.entries_eq, List.flatMap_map, List.filterMap_map, ← removals,
    ← oldBears.entries_eq]
  rfl

/-- Every patch is found at one node. -/
theorem Bears.mem_diff {patch : Patch} :
    patch ∈ old.diff new ↔
      (∃ later ∈ after.preorder, later.identity ∉ before.identities ∧
        patch = .insert later.identity (new.parentOf? later.identity)) ∨
      (∃ node ∈ before.preorder, ∃ later ∈ after.preorder,
        node.identity = later.identity ∧
          patch ∈ (node.revisionEntry old.parentIds).changes
            (later.revisionEntry new.parentIds)) ∨
      (∃ node ∈ before.preorder, node.identity ∉ after.identities ∧
        patch = .remove node.identity) := by
  rw [oldBears.diff_eq newBears, List.mem_append, List.mem_flatMap,
    List.mem_map]
  constructor
  · rintro (⟨later, laterIn, listed⟩ | ⟨node, listed, rfl⟩)
    · by_cases known : later.identity ∈ before.identities
      · obtain ⟨node, nodeIn, same⟩ := List.mem_map.mp known
        rw [oldBears.patchesAt_of_known nodeIn same] at listed
        exact .inr (.inl ⟨node, nodeIn, later, laterIn, same, listed⟩)
      · rw [oldBears.patchesAt_of_new newBears known] at listed
        exact .inl ⟨later, laterIn, known, List.mem_singleton.mp listed⟩
    · obtain ⟨nodeIn, isGone⟩ := List.mem_filter.mp listed
      exact .inr (.inr ⟨node, nodeIn, of_decide_eq_true isGone, rfl⟩)
  · rintro (⟨later, laterIn, isNew, rfl⟩ |
      ⟨node, nodeIn, later, laterIn, same, listed⟩ | ⟨node, nodeIn, isGone, rfl⟩)
    · refine .inl ⟨later, laterIn, ?_⟩
      rw [oldBears.patchesAt_of_new newBears isNew]
      exact List.mem_singleton_self _
    · refine .inl ⟨later, laterIn, ?_⟩
      rw [oldBears.patchesAt_of_known nodeIn same]
      exact listed
    · exact .inr ⟨node, List.mem_filter.mpr ⟨nodeIn, decide_eq_true isGone⟩, rfl⟩

omit [Scalar α] in
/-- A node with a child that stays is in both revisions. -/
theorem Bears.exists_holders {parent id : NodeId}
    (wasParent : old.parentOf? id = some parent)
    (isParent : new.parentOf? id = some parent) :
    ∃ node ∈ before.preorder, ∃ later ∈ after.preorder,
      node.identity = parent ∧ later.identity = parent ∧
        id ∈ node.children.map Program.identity ∧
        id ∈ later.children.map Program.identity := by
  rw [oldBears.parentOf_eq] at wasParent
  rw [newBears.parentOf_eq] at isParent
  obtain ⟨_, node, isKin, -, rfl⟩ := oldBears.lookup_parent.mp wasParent
  obtain ⟨_, later, isLaterKin, -, same⟩ := newBears.lookup_parent.mp isParent
  have nodeIn := (Program.mem_kinships.mp isKin).1
  have laterIn := (Program.mem_kinships.mp isLaterKin).1
  refine ⟨node, nodeIn, later, laterIn, rfl, same, ?_, ?_⟩
  · exact (oldBears.mem_children_iff nodeIn).mpr wasParent
  · rw [newBears.mem_children_iff laterIn, same]
    exact isParent

section

variable {node later : Located α} (nodeIn : node ∈ before.preorder)
  (laterIn : later ∈ after.preorder) (same : node.identity = later.identity)

include nodeIn laterIn same

omit [Scalar α] in
/-- The moves below a node are those of the children that stay and are
rearranged. -/
theorem Bears.move_mem_reordered_iff {id : NodeId} :
    Patch.move id (some later.identity) (some later.identity) ∈
        RevisionEntry.reordered later.identity node.childPlaces
          later.childPlaces ↔
      old.parentOf? id = some later.identity ∧
        new.parentOf? id = some later.identity ∧
        old.Rearranges new later.identity id := by
  have oldKept := oldBears.keptChildren_eq newBears nodeIn laterIn same
  have newKept := newBears.keptChildren_eq oldBears laterIn nodeIn same.symm
  have oldPlaces := oldBears.childrenOf_eq nodeIn
  rw [same] at oldKept oldPlaces
  rw [RevisionEntry.move_mem_reordered (oldBears.places_distinct nodeIn)
      (newBears.places_distinct laterIn),
    RevisionEntry.mem_shared, Program.map_snd_childPlaces,
    Program.map_snd_childPlaces, newBears.mem_children_iff laterIn,
    oldBears.mem_children_iff nodeIn, ← newBears.parentOf_eq,
    ← oldBears.parentOf_eq, same, Rearranges, oldKept, newKept, oldPlaces,
    newBears.childrenOf_eq laterIn]
  rw [and_assoc, and_left_comm]

omit [Scalar α] in
/-- Children that are in the same places are not rearranged. -/
theorem Bears.not_rearranges (places : node.childPlaces = later.childPlaces)
    {id : NodeId} : ¬ old.Rearranges new later.identity id := by
  have oldKept := oldBears.keptChildren_eq newBears nodeIn laterIn same
  have oldPlaces := oldBears.childrenOf_eq nodeIn
  have newKept := newBears.keptChildren_eq oldBears laterIn nodeIn same.symm
  have distinct := newBears.places_distinct laterIn
  rw [same] at oldKept oldPlaces
  rw [Rearranges, oldKept, newKept, oldPlaces, newBears.childrenOf_eq laterIn,
    places]
  rintro (differs | ⟨first, second⟩ | ⟨first, second⟩)
  · exact differs rfl
  · cases RevisionEntry.place_unique distinct first second
  · cases RevisionEntry.place_unique distinct first second

theorem Bears.mem_changes_iff {patch : Patch} :
    patch ∈ (node.revisionEntry old.parentIds).changes
        (later.revisionEntry new.parentIds) ↔
      (node.tag ≠ later.tag ∧ patch = .restructure later.identity) ∨
      (node.tag = later.tag ∧ ¬ node.node.SaysSame later.node ∧
        patch = .update later.identity) ∨
      (old.parentOf? later.identity ≠ new.parentOf? later.identity ∧
        patch = .move later.identity (old.parentOf? later.identity)
          (new.parentOf? later.identity)) ∨
      ∃ id, old.parentOf? id = some later.identity ∧
        new.parentOf? id = some later.identity ∧
        old.Rearranges new later.identity id ∧
        patch = .move id (some later.identity) (some later.identity) := by
  have content : (node.revisionEntry old.parentIds).sameContent
      (later.revisionEntry new.parentIds) = true ↔
        node.node.SaysSame later.node := by
    unfold RevisionEntry.sameContent Node.SaysSame
    simp only [Bool.and_eq_true, decide_eq_true_eq, and_assoc]
    rfl
  have oldParent : (node.revisionEntry old.parentIds).parent =
      old.parentOf? later.identity := by
    rw [oldBears.parentOf_eq, ← same]
    rfl
  have newParent : (later.revisionEntry new.parentIds).parent =
      new.parentOf? later.identity := (newBears.parentOf_eq _).symm
  have moves : patch ∈ RevisionEntry.reordered later.identity node.childPlaces
        later.childPlaces ↔
      ∃ id, old.parentOf? id = some later.identity ∧
        new.parentOf? id = some later.identity ∧
        old.Rearranges new later.identity id ∧
        patch = .move id (some later.identity) (some later.identity) := by
    constructor
    · intro listed
      have isMove := (RevisionEntry.eq_move_of_mem_reordered listed).1
      rw [isMove, oldBears.move_mem_reordered_iff newBears nodeIn laterIn same]
        at listed
      exact ⟨patch.id, listed.1, listed.2.1, listed.2.2, isMove⟩
    · rintro ⟨id, wasParent, isParent, rearranged, rfl⟩
      exact (oldBears.move_mem_reordered_iff newBears nodeIn laterIn same).mpr
        ⟨wasParent, isParent, rearranged⟩
  rw [RevisionEntry.mem_changes, content, oldParent, newParent, ← moves]
  rfl

end

theorem Bears.tells_of_mem_diff {patch : Patch} (isListed : patch ∈ old.diff new) :
    old.Tells new patch := by
  rw [oldBears.mem_diff newBears] at isListed
  rcases isListed with ⟨later, laterIn, unknown, rfl⟩ |
    ⟨node, nodeIn, later, laterIn, same, listed⟩ | ⟨node, nodeIn, isGone, rfl⟩
  · exact ⟨newBears.mem_identities.mpr ⟨later, laterIn, rfl⟩,
      oldBears.identities_eq ▸ unknown, rfl⟩
  · have wasNamed := oldBears.named_eq nodeIn
    have isNamed := newBears.named_eq laterIn
    rw [same] at wasNamed
    rcases (oldBears.mem_changes_iff newBears nodeIn laterIn same).mp listed
      with ⟨differs, rfl⟩ | ⟨sameTag, differs, rfl⟩ | ⟨differs, rfl⟩ |
        ⟨id, wasParent, isParent, rearranged, rfl⟩
    · refine ⟨_, _, wasNamed, isNamed, ?_⟩
      simpa [Node.tag, Program.node] using differs
    · refine ⟨_, _, wasNamed, isNamed, ?_, differs⟩
      simpa [Node.tag, Program.node] using sameTag
    · exact ⟨oldBears.mem_identities.mpr ⟨node, nodeIn, same⟩,
        newBears.mem_identities.mpr ⟨later, laterIn, rfl⟩, rfl, rfl, .inl differs⟩
    · exact ⟨oldBears.mem_identities_of_parent wasParent,
        newBears.mem_identities_of_parent isParent, wasParent.symm,
        isParent.symm, .inr ⟨_, rfl, rfl, rearranged⟩⟩
  · exact ⟨oldBears.mem_identities.mpr ⟨node, nodeIn, rfl⟩,
      newBears.identities_eq ▸ isGone⟩

theorem Bears.mem_diff_of_tells {patch : Patch} (told : old.Tells new patch) :
    patch ∈ old.diff new := by
  rw [oldBears.mem_diff newBears]
  cases patch with
  | insert id parent =>
      obtain ⟨known, unknown, rfl⟩ := told
      obtain ⟨later, laterIn, rfl⟩ := newBears.mem_identities.mp known
      exact .inl ⟨later, laterIn, oldBears.identities_eq ▸ unknown, rfl⟩
  | remove id =>
      obtain ⟨known, unknown⟩ := told
      obtain ⟨node, nodeIn, rfl⟩ := oldBears.mem_identities.mp known
      exact .inr (.inr ⟨node, nodeIn, newBears.identities_eq ▸ unknown, rfl⟩)
  | restructure id =>
      obtain ⟨_, _, wasNamed, isNamed, differs⟩ := told
      obtain ⟨node, nodeIn, rfl, rfl⟩ := oldBears.exists_of_named wasNamed
      obtain ⟨later, laterIn, same, rfl⟩ := newBears.exists_of_named isNamed
      refine .inr (.inl ⟨node, nodeIn, later, laterIn, same.symm, ?_⟩)
      rw [oldBears.mem_changes_iff newBears nodeIn laterIn same.symm]
      refine .inl ⟨?_, by rw [same]⟩
      simpa [Node.tag, Program.node] using differs
  | update id =>
      obtain ⟨_, _, wasNamed, isNamed, sameTag, differs⟩ := told
      obtain ⟨node, nodeIn, rfl, rfl⟩ := oldBears.exists_of_named wasNamed
      obtain ⟨later, laterIn, same, rfl⟩ := newBears.exists_of_named isNamed
      refine .inr (.inl ⟨node, nodeIn, later, laterIn, same.symm, ?_⟩)
      rw [oldBears.mem_changes_iff newBears nodeIn laterIn same.symm]
      refine .inr (.inl ⟨?_, differs, by rw [same]⟩)
      simpa [Node.tag, Program.node] using sameTag
  | move id source target =>
      obtain ⟨known, stillKnown, wasParent, isParent, moved⟩ := told
      rcases moved with differs | ⟨parent, rfl, rfl, rearranged⟩
      · obtain ⟨node, nodeIn, rfl⟩ := oldBears.mem_identities.mp known
        obtain ⟨later, laterIn, same⟩ := newBears.mem_identities.mp stillKnown
        refine .inr (.inl ⟨node, nodeIn, later, laterIn, same.symm, ?_⟩)
        rw [oldBears.mem_changes_iff newBears nodeIn laterIn same.symm, same,
          ← wasParent, ← isParent]
        exact .inr (.inr (.inl ⟨differs, rfl⟩))
      · obtain ⟨node, nodeIn, later, laterIn, wasHolder, rfl, -⟩ :=
          oldBears.exists_holders newBears wasParent.symm isParent.symm
        refine .inr (.inl ⟨node, nodeIn, later, laterIn, wasHolder, ?_⟩)
        rw [oldBears.mem_changes_iff newBears nodeIn laterIn wasHolder]
        exact .inr (.inr (.inr
          ⟨id, wasParent.symm, isParent.symm, rearranged, rfl⟩))

/-- What the patches tell is so, and whatever can be told is. -/
theorem Bears.mem_diff_iff {patch : Patch} :
    patch ∈ old.diff new ↔ old.Tells new patch :=
  ⟨oldBears.tells_of_mem_diff newBears, oldBears.mem_diff_of_tells newBears⟩

/-- Nothing is told twice. -/
theorem Bears.diff_nodup : (old.diff new).Nodup := by
  have laterDistinct := newBears.identitiesNodup
  have nodesDistinct := oldBears.identitiesNodup
  rw [Program.identities, List.Nodup, List.pairwise_map] at laterDistinct
  rw [oldBears.diff_eq newBears, List.nodup_append, List.nodup_flatMap]
  refine ⟨⟨fun later laterIn => ?_, ?_⟩, ?_, ?_⟩
  · by_cases known : later.identity ∈ before.identities
    · obtain ⟨node, nodeIn, same⟩ := List.mem_map.mp known
      rw [oldBears.patchesAt_of_known nodeIn same]
      exact RevisionEntry.changes_nodup (oldBears.places_distinct nodeIn)
        (newBears.places_distinct laterIn)
    · rw [oldBears.patchesAt_of_new newBears known]
      exact List.nodup_singleton _
  · refine laterDistinct.imp fun {later other} differs patch listed again => ?_
    rw [← foundAt_of_mem_patchesAt listed, ← foundAt_of_mem_patchesAt again]
      at differs
    exact differs rfl
  · have removed : ((before.preorder.filter fun node =>
        node.identity ∉ after.identities).map Program.identity).Nodup :=
      nodesDistinct.sublist (List.filter_sublist.map _)
    rw [List.Nodup, List.pairwise_map] at removed ⊢
    exact removed.imp fun differs same => differs (Patch.remove.inj same)
  · rintro patch listed _ isRemoval rfl
    obtain ⟨later, laterIn, listed⟩ := List.mem_flatMap.mp listed
    obtain ⟨node, nodeIn, rfl⟩ := List.mem_map.mp isRemoval
    have isGone := of_decide_eq_true (List.mem_filter.mp nodeIn).2
    have found : node.identity = later.identity :=
      foundAt_of_mem_patchesAt listed
    exact isGone (found ▸ List.mem_map_of_mem laterIn)

end

end Tree

end Flowchart
