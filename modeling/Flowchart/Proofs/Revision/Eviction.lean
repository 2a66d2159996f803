import Flowchart.Proofs.Layout.Drawn
import Flowchart.Proofs.Revision.Entries
import Flowchart.Proofs.Scalar.Single
import Flowchart.Proofs.Settings.Accepted

/-!
# What is kept from one revision to the next

An arrangement depends on all that is below its node.  Whatever changes there,
some patch tells of it, and what lies above the place of the change is dropped.
So an identity that is not dropped stands for the same program in both
revisions, and what the cache still has for it is what measuring it anew gives.
-/

namespace Flowchart

/-! ## Sizes asked for -/

namespace LayoutSettings

/-- Of two hints that count as equal either may be used. -/
def HintsAgree {α : Type} [Scalar α] (settings : LayoutSettings α) : Prop :=
  ∀ (tag : Tag) (left right : Label α), left.hasValidHint = true →
    (left.hint == right.hint) = true →
    Arrangement.figureSize settings tag left =
      Arrangement.figureSize settings tag right

/-- Zero has two signs, but no figure is drawn as small as that. -/
theorem Accepted.hintsAgree {settings : LayoutSettings Float32}
    (accepted : settings.Accepted) : settings.HintsAgree := by
  intro tag left right valid same
  obtain ⟨leastValid, width, height⟩ := accepted.minimum tag
  unfold Size.isValid at leastValid
  simp only [Bool.and_eq_true] at leastValid
  unfold Label.hasValidHint at valid
  unfold Arrangement.figureSize MinimumSizes.figure
  cases leftHint : left.hint with
  | none =>
      cases rightHint : right.hint with
      | none => rfl
      | some hint =>
          rw [leftHint, rightHint] at same
          cases same
  | some hint =>
      cases rightHint : right.hint with
      | none =>
          rw [leftHint, rightHint] at same
          cases same
      | some other =>
          rw [leftHint] at valid
          rw [leftHint, rightHint] at same
          have sides : (hint.width == other.width) = true ∧
              (hint.height == other.height) = true :=
            Bool.and_eq_true_iff.mp same
          simp only [Size.isValid, Bool.and_eq_true] at valid
          simp only [Size.max]
          rw [Single.larger_eq_of_beq sides.1 valid.1.1.1.1.1
              (Single.isPositive leastValid.1.1.1 width),
            Single.larger_eq_of_beq sides.2 valid.1.1.1.1.2
              (Single.isPositive leastValid.1.1.2 height)]

end LayoutSettings

/-! ## What is dropped -/

namespace Tree

variable {α : Type} [Scalar α] {old new : Tree α}
  {before after : Located α}

/-- The identities whose arrangements are dropped before a new revision. -/
def stale (old new : Tree α) : List NodeId :=
  (old.diff new).flatMap (Parents.affected old.parentIds new.parentIds)

theorem mem_stale {patch : Patch} (patchIn : patch ∈ old.diff new) {id : NodeId}
    (isAffected : id ∈ Parents.affected old.parentIds new.parentIds patch) :
    id ∈ old.stale new :=
  List.mem_flatMap.mpr ⟨patch, patchIn, isAffected⟩

/-- With a node all above it is dropped. -/
theorem Bears.stale_of_child (bears : new.Bears after)
    {parent child : Located α} (parentIn : parent ∈ after.preorder)
    (childIn : child ∈ parent.children)
    (isStale : child.identity ∈ old.stale new) :
    parent.identity ∈ old.stale new := by
  have above : ∀ start, child.identity ∈ new.parentIds.upFrom start →
      parent.identity ∈ new.parentIds.upFrom start :=
    fun start => bears.mem_upFrom_of_child parentIn childIn
  obtain ⟨patch, patchIn, isAffected⟩ := List.mem_flatMap.mp isStale
  refine mem_stale patchIn ?_
  cases patch with
  | insert id parent => exact above _ isAffected
  | update id => exact above _ isAffected
  | restructure id => exact above _ isAffected
  | remove id =>
      exact (List.mem_append.mp isAffected).elim
        (fun isAffected => List.mem_append_left _ (above _ isAffected))
        (fun isAffected => List.mem_append_right _ (above _ isAffected))
  | move id source target =>
      exact (List.mem_append.mp isAffected).elim
        (fun isAffected => List.mem_append_left _ (above _ isAffected))
        (fun isAffected => List.mem_append_right _ (above _ isAffected))

end Tree

/-! ## What stays -/

namespace RevisionEntry

/-- Children that are in both lists and of which none is moved stand alike. -/
theorem eq_of_not_reordered {parent : NodeId}
    {old new : List (SlotName × NodeId)}
    (same : ∀ id, id ∈ old.map Prod.snd ↔ id ∈ new.map Prod.snd)
    (length_eq : old.length = new.length)
    (notMoved : ∀ id,
      Patch.move id (some parent) (some parent) ∉ reordered parent old new) :
    old.map Prod.snd = new.map Prod.snd := by
  have keptOld : old.filter (fun child =>
      new.any fun other => decide (other.2 = child.2)) = old := by
    rw [List.filter_eq_self]
    intro child childIn
    have inNew := (same child.2).mp (List.mem_map_of_mem childIn)
    simpa using inNew
  have keptNew : new.filter (fun child =>
      old.any fun other => decide (other.2 = child.2)) = new := by
    rw [List.filter_eq_self]
    intro child childIn
    have inOld := (same child.2).mpr (List.mem_map_of_mem childIn)
    simpa using inOld
  refine List.ext_getElem (by simpa using length_eq) fun index oldLt newLt => ?_
  rw [List.getElem_map, List.getElem_map]
  rw [List.length_map] at oldLt newLt
  by_contra differs
  refine notMoved new[index].2 ?_
  unfold reordered
  rw [keptOld, keptNew]
  refine List.mem_filterMap.mpr ⟨(new[index], old[index]), ?_, ?_⟩
  · rw [List.mem_iff_getElem]
    exact ⟨index, by simpa using ⟨newLt, oldLt⟩, List.getElem_zip⟩
  · have isOther : new[index].2 ≠ old[index].2 := fun equal => differs equal.symm
    simp [isOther]

end RevisionEntry

namespace Program

variable {α : Type} [Scalar α]

/-- Two nodes look the same, and their children have the same identities in the
same order. -/
structure Alike (node later : Located α) : Prop where
  identity : node.identity = later.identity
  tag : node.tag = later.tag
  text : node.label.2.text = later.label.2.text
  hint : (node.label.2.hint == later.label.2.hint) = true
  kind : node.construct.statementKind? = later.construct.statementKind?
  patterns : node.construct.patterns = later.construct.patterns
  children : node.children.map Program.identity =
    later.children.map Program.identity

end Program

namespace Tree

variable {α : Type} [Scalar α] {old new : Tree α}
  {before after node later : Located α}

section

variable (oldBears : old.Bears before)
  (newBears : new.Bears after) (nodeIn : node ∈ before.preorder)
  (laterIn : later ∈ after.preorder) (same : node.identity = later.identity)
  (isFresh : later.identity ∉ old.stale new)

include oldBears newBears nodeIn laterIn same isFresh

/-- A change of the node itself would have been told. -/
theorem Bears.not_mem_changes {patch : Patch}
    (isAffected : later.identity ∈
      Parents.affected old.parentIds new.parentIds patch) :
    patch ∉ (node.revisionEntry old.parentIds).changes (later.revisionEntry new.parentIds) :=
  fun isChange => isFresh (mem_stale
    (change_mem_diff oldBears newBears nodeIn laterIn same isChange)
    isAffected)

/-- No child has come, gone or changed its parent. -/
theorem Bears.mem_children_of_fresh {id : NodeId} :
    id ∈ node.children.map Program.identity ↔
      id ∈ later.children.map Program.identity := by
  -- a child in both revisions has kept its parent, or a move would name both
  have keptParent : ∀ child ∈ before.preorder, ∀ other ∈ after.preorder,
      child.identity = other.identity →
      later.identity ∈ new.parentIds.upFrom
          (old.parentIds.lookup child.identity) ∨
        later.identity ∈ new.parentIds.upFrom
          (new.parentIds.lookup other.identity) →
      old.parentIds.lookup child.identity =
        new.parentIds.lookup other.identity := by
    intro child childIn other otherIn sameChild isAbove
    by_contra moved
    have isMove : Patch.move other.identity
        (old.parentIds.lookup child.identity)
        (new.parentIds.lookup other.identity) ∈
        (child.revisionEntry old.parentIds).changes (other.revisionEntry new.parentIds) := by
      refine List.mem_append_left _ (List.mem_append_right _ ?_)
      have differs : (child.revisionEntry old.parentIds).parent ≠
          (other.revisionEntry new.parentIds).parent := moved
      rw [if_pos differs]
      exact List.mem_singleton.mpr rfl
    exact isFresh (mem_stale
      (change_mem_diff oldBears newBears childIn otherIn sameChild isMove)
      (List.mem_append.mpr isAbove))
  constructor
  · intro isChild
    have oldParent := (oldBears.mem_children_iff nodeIn).mp isChild
    obtain ⟨child, childIn, rfl⟩ := List.mem_map.mp isChild
    have childBelow : child ∈ before.preorder :=
      Program.mem_preorder_trans nodeIn (Program.child_mem_preorder childIn)
    have above : later.identity ∈ new.parentIds.upFrom
        (old.parentIds.lookup child.identity) := by
      rw [oldParent, same]
      exact Parents.self_mem_upFrom _
    by_cases isKept : child.identity ∈ after.identities
    · obtain ⟨other, otherIn, sameChild⟩ := List.mem_map.mp isKept
      rw [newBears.mem_children_iff laterIn, ← sameChild,
        ← keptParent child childBelow other otherIn sameChild.symm (.inl above),
        oldParent, same]
    · refine absurd (mem_stale
        (remove_mem_diff oldBears newBears childBelow isKept) ?_) isFresh
      exact List.mem_append_right _ above
  · intro isChild
    have newParent := (newBears.mem_children_iff laterIn).mp isChild
    obtain ⟨child, childIn, rfl⟩ := List.mem_map.mp isChild
    have childBelow : child ∈ after.preorder :=
      Program.mem_preorder_trans laterIn (Program.child_mem_preorder childIn)
    have above : later.identity ∈ new.parentIds.upFrom
        (new.parentIds.lookup child.identity) := by
      rw [newParent]
      exact Parents.self_mem_upFrom _
    by_cases isKnown : child.identity ∈ before.identities
    · obtain ⟨other, otherIn, sameChild⟩ := List.mem_map.mp isKnown
      rw [oldBears.mem_children_iff nodeIn, ← sameChild,
        keptParent other otherIn child childBelow sameChild (.inr above),
        newParent, same]
    · exact absurd (mem_stale
        (insert_mem_diff oldBears newBears childBelow isKnown) above) isFresh

/-- The children stand in the order in which they stood. -/
theorem Bears.children_eq_of_fresh :
    node.children.map Program.identity = later.children.map Program.identity := by
  have sameChildren : ∀ {id : NodeId},
      id ∈ node.children.map Program.identity ↔
        id ∈ later.children.map Program.identity :=
    mem_children_of_fresh oldBears newBears nodeIn laterIn same isFresh
  have permuted : (node.children.map Program.identity).Perm
      (later.children.map Program.identity) :=
    (List.perm_ext_iff_of_nodup (oldBears.children_distinct nodeIn)
      (newBears.children_distinct laterIn)).mpr fun _ => sameChildren
  have oldListed := Program.map_snd_places node
  have newListed := Program.map_snd_places later
  rw [← oldListed, ← newListed] at sameChildren permuted ⊢
  have notMoved : ∀ id,
      Patch.move id (some later.identity) (some later.identity) ∉
        RevisionEntry.reordered later.identity
          (node.revisionEntry old.parentIds).children
          (later.revisionEntry new.parentIds).children := by
    intro id isMoved
    refine not_mem_changes oldBears newBears nodeIn laterIn same isFresh ?_
      (List.mem_append_right _ isMoved)
    exact List.mem_append_left _ (Parents.self_mem_upFrom _)
  exact RevisionEntry.eq_of_not_reordered (fun _ => sameChildren)
    (by simpa using permuted.length_eq) notMoved

theorem Bears.alike_of_fresh : node.Alike later := by
  have unchanged : ∀ patch, later.identity ∈
      Parents.affected old.parentIds new.parentIds patch →
      patch ∉ (node.revisionEntry old.parentIds).changes
        (later.revisionEntry new.parentIds) :=
    fun patch => not_mem_changes oldBears newBears nodeIn laterIn same isFresh
  have tag : node.tag = later.tag := by
    by_contra differs
    refine unchanged (.restructure later.identity) (Parents.self_mem_upFrom _)
      (List.mem_append_left _ (List.mem_append_left _ ?_))
    have tags : (node.revisionEntry old.parentIds).tag ≠
        (later.revisionEntry new.parentIds).tag := differs
    rw [if_pos tags]
    exact List.mem_singleton.mpr rfl
  have content : (node.revisionEntry old.parentIds).sameContent
      (later.revisionEntry new.parentIds) = true := by
    by_contra differs
    refine unchanged (.update later.identity) (Parents.self_mem_upFrom _)
      (List.mem_append_left _ (List.mem_append_left _ ?_))
    have tags : ¬ (node.revisionEntry old.parentIds).tag ≠
        (later.revisionEntry new.parentIds).tag := not_not.mpr tag
    rw [if_neg tags, if_pos (by simpa using differs)]
    exact List.mem_singleton.mpr rfl
  unfold RevisionEntry.sameContent at content
  simp only [Bool.and_eq_true, decide_eq_true_eq] at content
  exact {
    identity := same
    tag
    text := content.1.1.1
    hint := content.1.1.2
    kind := content.1.2
    patterns := content.2
    children := children_eq_of_fresh oldBears newBears nodeIn laterIn same
      isFresh }

end

end Tree

/-! ## Measures that stay -/

namespace Program

variable {α : Type} [Scalar α] {settings : LayoutSettings α}

/-- Nodes that look the same have the same measures if what is below them
has. -/
theorem Alike.framed_eq {node later : Located α} (alike : node.Alike later)
    (agree : settings.HintsAgree)
    (valid : node.label.2.hasValidHint = true)
    (below : node.children.map (fun child => child.written.framed settings) =
      later.children.map fun child => child.written.framed settings) :
    node.written.framed settings = later.written.framed settings := by
  have size : ∀ tag, Arrangement.figureSize settings tag node.label.2 =
      Arrangement.figureSize settings tag later.label.2 :=
    fun tag => agree tag _ _ valid alike.hint
  have id : node.label.2.id = later.label.2.id := alike.identity
  have text := alike.text
  have tag := alike.tag
  cases node with
  | statement label kind =>
      cases later with
      | statement other otherKind =>
          have sameKind : kind = otherKind := Option.some_inj.mp alike.kind
          simp only [Program.label] at id text size
          simp only [written, map, framed, leafFrame, Frame.leaf, id, text, size,
            sameKind]
      | _ => cases tag
  | block label members =>
      cases later with
      | block other others =>
          simp only [Program.label] at id text size
          simp only [Program.children, written] at below
          simp only [written, map, framed, mapMembers_eq, framedMembers_eq,
            List.map_map, Function.comp_def, below, blockFrame, leafFrame,
            Frame.leaf, Frame.column, id, text, size]
      | _ => cases tag
  | decision label consequent alternative =>
      cases later with
      | decision other otherConsequent otherAlternative =>
          simp only [Program.label] at id text size
          cases alternative <;> cases otherAlternative <;>
            simp only [Program.children, written, Option.toList, List.map_cons,
              List.map_nil, List.cons.injEq, and_true, reduceCtorEq, and_false]
              at below
          · simp only [written, map, framed, Frame.decision, id, text, size,
              below]
          · simp only [written, map, framed, Frame.decision, id, text, size,
              below]
      | _ => cases tag
  | selection label arms =>
      cases later with
      | selection other otherArms =>
          have samePatterns : arms.map Prod.fst = otherArms.map Prod.fst := by
            simpa [construct, Construct.patterns, Function.comp_def]
              using alike.patterns
          have paired := congrArg₂ List.zip samePatterns below
          simp only [Program.children, written, List.map_map, List.zip_map',
            Function.comp_def] at paired
          simp only [Program.label] at id text size
          simp only [written, map, framed, mapArms_eq, framedArms_eq,
            List.map_map, Function.comp_def, paired, Frame.selection, id, text,
            size]
      | _ => cases tag
  | loop label kind body =>
      cases later with
      | loop other otherKind otherBody =>
          have sameKind : kind = otherKind := Tag.loop.inj tag
          simp only [Program.label] at id text size
          simp only [Program.children, written, List.map_cons, List.map_nil,
            List.cons.injEq, and_true] at below
          simp only [written, map, framed, Frame.loop, id, text, size, below,
            sameKind]
      | _ => cases tag
  | result label =>
      cases later with
      | result other =>
          simp only [Program.label] at id text size
          simp only [written, map, framed, leafFrame, Frame.leaf, id, text, size]
      | _ => cases tag
  | container label kind body =>
      cases later with
      | container other otherKind otherBody =>
          have sameKind : kind = otherKind := Tag.container.inj tag
          simp only [Program.label] at id text size
          simp only [Program.children, written, List.map_cons, List.map_nil,
            List.cons.injEq, and_true] at below
          simp only [written, map, framed, Frame.container, id, text, size,
            below, sameKind]
      | _ => cases tag
  | typeDefinition label =>
      cases later with
      | typeDefinition other =>
          simp only [Program.label] at id text size
          simp only [written, map, framed, leafFrame, Frame.leaf, id, text, size]
      | _ => cases tag

end Program

namespace Tree

variable {α : Type} [Scalar α] {settings : LayoutSettings α} {old new : Tree α}
  {limit : Nat} {before after : Located α}

/-- An identity that is not dropped stands for nodes with the same measures. -/
theorem Stores.framed_eq_of_fresh (oldStores : old.Stores limit before)
    (newBears : new.Bears after) (agree : settings.HintsAgree)
    {node later : Located α} (nodeIn : node ∈ before.preorder)
    (laterIn : later ∈ after.preorder) (same : node.identity = later.identity)
    (isFresh : later.identity ∉ old.stale new) :
    node.written.framed settings = later.written.framed settings := by
  induction later using Program.childrenInduction generalizing node with
  | step later ih =>
    have alike := Bears.alike_of_fresh oldStores.toBears newBears nodeIn laterIn
      same isFresh
    refine alike.framed_eq agree (oldStores.hasValidHint nodeIn) ?_
    have childrenSame := alike.children
    refine List.ext_getElem (by simpa using congrArg List.length childrenSame)
      fun index oldLt newLt => ?_
    rw [List.length_map] at oldLt newLt
    have sameChild : node.children[index].identity =
        later.children[index].identity := by
      have atIndex := congrArg (fun ids => ids[index]?) childrenSame
      simpa [oldLt, newLt] using atIndex
    have childIn : later.children[index] ∈ later.children := List.getElem_mem _
    have childFresh : later.children[index].identity ∉ old.stale new :=
      fun isStale => isFresh (newBears.stale_of_child laterIn childIn isStale)
    rw [List.getElem_map, List.getElem_map]
    exact ih _ childIn
      (Program.mem_preorder_trans nodeIn
        (Program.child_mem_preorder (List.getElem_mem _)))
      (Program.mem_preorder_trans laterIn (Program.child_mem_preorder childIn))
      sameChild childFresh

/-- A cache with the measures of the last revision holds for the next one, once
all that is affected is dropped. -/
theorem Stores.sound_invalidate (oldStores : old.Stores limit before)
    (newBears : new.Bears after) (agree : settings.HintsAgree)
    (intact : Arrangement.fault? (before.written.framed settings) = none)
    {cache : ArrangementCache α}
    (held : ∀ entry ∈ cache.entries, ∃ node ∈ before.preorder,
      entry = (node.identity, node.written.framed settings)) :
    (cache.invalidate old.parentIds new.parentIds (old.diff new)).Sound settings
      after.written := by
  intro written writtenIn arrangement found
  rw [Program.written, Program.preorder_map] at writtenIn
  obtain ⟨later, laterIn, rfl⟩ := List.mem_map.mp writtenIn
  obtain ⟨earlier, rest, listed, -⟩ := List.lookup_eq_some_iff.mp found
  have kept : (later.identity, arrangement) ∈ cache.entries.filter fun entry =>
      !(old.stale new).contains entry.1 := by
    rw [Program.label_map] at listed
    have isListed : (later.identity, arrangement) ∈
        (cache.invalidate old.parentIds new.parentIds
          (old.diff new)).entries := by
      rw [listed]
      exact List.mem_append_right _ List.mem_cons_self
    exact isListed
  obtain ⟨entryIn, notStale⟩ := List.mem_filter.mp kept
  obtain ⟨node, nodeIn, isEntry⟩ := held _ entryIn
  obtain ⟨same, rfl⟩ := Prod.mk.inj isEntry
  have isFresh : later.identity ∉ old.stale new := by simpa using notStale
  have sameFrames := framed_eq_of_fresh oldStores newBears agree nodeIn laterIn
    same.symm isFresh
  have noFault : Arrangement.fault? (node.written.framed settings) = none := by
    refine Program.fault?_framed_of_mem intact ?_
    rw [Program.written, Program.preorder_map]
    exact List.mem_map_of_mem nodeIn
  rw [sameFrames] at noFault ⊢
  exact settle_eq_ok.mpr ⟨noFault, rfl⟩

end Tree

end Flowchart
