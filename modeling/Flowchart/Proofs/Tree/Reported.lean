import Flowchart.Proofs.Tree.Verdict

/-!
# What validation reports first

Validation goes down a tree depth first, a node before what is below it and the
children of a node in their order.  What it reports of a place that is empty or
leads nowhere belongs to the first node with such a place, and no node met up to
there has another defect.  Of several such places of the node it is the last one
that is reported.
-/

namespace Flowchart

/-- A defect of a place of a node. -/
inductive Defect.IsOfPlace : Defect → Prop where
  | danglingReference (id : NodeId) (name : SlotName) (child : Handle) :
      IsOfPlace (.danglingReference id name child)
  | missingSlot (id : NodeId) (tag : Tag) (name : SlotName) :
      IsOfPlace (.missingSlot id tag name)

/-- Where a node is met on the way down from the root: the ranks of the children
taken, and the handles passed, the nearest first. -/
structure Spot where
  path : List Nat
  above : List Handle
  handle : Handle

namespace Spot

def child (spot : Spot) (rank : Nat) (handle : Handle) : Spot :=
  ⟨spot.path ++ [rank], spot.handle :: spot.above, handle⟩

/-- A spot is met before another one, or is this one.  Paths compare as words do, so
that a node comes before what is below it and children come in their order. -/
def IsUpTo (spot last : Spot) : Prop := spot.path < last.path ∨ spot = last

/-- The entry of the walk. -/
def entry (spot : Spot) : Handle × Nat := (spot.handle, spot.above.length)

/-- A node is met before its children. -/
theorem path_lt_child (spot : Spot) (rank : Nat) (handle : Handle) :
    spot.path < (spot.child rank handle).path := by
  have longer : spot.path ++ [] < spot.path ++ [rank] :=
    List.append_left_lt (List.nil_lt_cons rank [])
  rwa [List.append_nil] at longer

variable {spot later : Spot}

/-- All that is below a spot comes before another one. -/
def Before (first later : Spot) : Prop :=
  ∀ rest, first.path ++ rest < later.path

theorem Before.path_lt (before : spot.Before later) : spot.path < later.path := by
  simpa using before []

theorem Before.child (before : spot.Before later) (rank : Nat) (handle : Handle) :
    (spot.child rank handle).Before later := by
  intro rest
  rw [Spot.child, List.append_assoc]
  exact before _

theorem child_before_child {rank next : Nat} (isBefore : rank < next)
    (handle other : Handle) :
    (spot.child rank handle).Before (spot.child next other) := by
  intro rest
  rw [Spot.child, List.append_assoc]
  exact List.append_left_lt (List.cons_lt_cons_iff.mpr (.inl isBefore))

/-- The children of a spot. -/
def children (spot : Spot) (handles : List Handle) : List Spot :=
  handles.zipIdx.map fun (handle, rank) => spot.child rank handle

theorem mem_children {handles : List Handle} {child : Spot} :
    child ∈ spot.children handles ↔ ∃ rank handle,
      handles[rank]? = some handle ∧ child = spot.child rank handle := by
  rw [children, List.mem_map]
  constructor
  · rintro ⟨⟨handle, rank⟩, isChild, rfl⟩
    exact ⟨rank, handle, List.mem_zipIdx_iff_getElem?.mp isChild, rfl⟩
  · rintro ⟨rank, handle, isChild, rfl⟩
    exact ⟨(handle, rank), List.mem_zipIdx_iff_getElem?.mpr isChild, rfl⟩

theorem map_children {β : Type} (change : Handle → List Handle → β) (spot : Spot)
    (handles : List Handle) :
    (spot.children handles).map (fun child => change child.handle child.above) =
      handles.map fun handle => change handle (spot.handle :: spot.above) := by
  conv_rhs => rw [← List.zipIdx_map_fst 0 handles, List.map_map]
  rw [children, List.map_map]
  rfl

theorem pairwise_children (spot : Spot) (handles : List Handle) :
    (spot.children handles).Pairwise Before := by
  rw [List.pairwise_iff_getElem]
  intro first second firstLt secondLt isBefore
  simp only [children, List.getElem_map, List.getElem_zipIdx, Nat.zero_add]
  exact child_before_child isBefore _ _

end Spot

namespace Tree

variable {α : Type} {tree : Tree α}

/-! ## Ways down by ranks -/

/-- A node is met below the root. -/
inductive Meets (tree : Tree α) : Spot → Prop where
  | root {root : Handle} : tree.root = some root → Meets tree ⟨[], [], root⟩
  | child {spot : Spot} {rank : Nat} {name : SlotName} {child : Handle} :
      Meets tree spot → (tree.children spot.handle)[rank]? = some (name, child) →
      Meets tree (spot.child rank child)

/-- The spots of the children of a node. -/
def below (tree : Tree α) (spot : Spot) : List Spot :=
  spot.children ((tree.children spot.handle).map Prod.snd)

namespace Meets

variable {spot other : Spot}

/-- Ranks lead to one node. -/
theorem eq_of_path (meets : tree.Meets spot) (otherMeets : tree.Meets other)
    (same : spot.path = other.path) : spot = other := by
  induction meets generalizing other with
  | root isRoot =>
      cases otherMeets with
      | root isOther =>
          obtain rfl := Option.some.inj (isRoot.symm.trans isOther)
          rfl
      | child => simp [Spot.child] at same
  | @child upper rank name child _ isChild ih =>
      cases otherMeets with
      | root => simp [Spot.child] at same
      | @child otherUpper otherRank otherName otherChild upperMeets isOther =>
          obtain ⟨samePath, sameRank⟩ := List.append_inj' same rfl
          obtain rfl := ih upperMeets samePath
          obtain rfl := List.singleton_inj.mp sameRank
          cases isChild.symm.trans isOther
          rfl

/-- Whatever a way passes is met. -/
theorem exists_passed (meets : tree.Meets spot) {path : List Nat}
    (isPrefix : path <+: spot.path) :
    ∃ upper, tree.Meets upper ∧ upper.path = path := by
  induction meets with
  | root isRoot => exact ⟨_, .root isRoot, (List.prefix_nil.mp isPrefix).symm⟩
  | child upperMeets isChild ih =>
      rcases List.prefix_concat_iff.mp isPrefix with rfl | isPrefix
      · exact ⟨_, .child upperMeets isChild, rfl⟩
      · exact ih isPrefix

theorem of_mem_below (meets : tree.Meets spot) (isBelow : other ∈ tree.below spot) :
    tree.Meets other := by
  obtain ⟨rank, handle, isChild, rfl⟩ := Spot.mem_children.mp isBelow
  rw [List.getElem?_map, Option.map_eq_some_iff] at isChild
  obtain ⟨⟨name, child⟩, isChild, rfl⟩ := isChild
  exact meets.child isChild

/-- A way that goes on goes on to a child. -/
theorem exists_below (meets : tree.Meets spot) (otherMeets : tree.Meets other)
    (isPrefix : spot.path <+: other.path) :
    other = spot ∨ ∃ child ∈ tree.below spot, child.path <+: other.path := by
  obtain ⟨rest, isSplit⟩ := isPrefix
  cases rest with
  | nil =>
      rw [List.append_nil] at isSplit
      exact .inl (otherMeets.eq_of_path meets isSplit.symm)
  | cons rank rest =>
      have isNext : spot.path ++ [rank] <+: other.path :=
        ⟨rest, by rw [← isSplit, List.append_assoc, List.singleton_append]⟩
      obtain ⟨next, nextMeets, samePath⟩ := otherMeets.exists_passed isNext
      cases nextMeets with
      | root => simp at samePath
      | @child upper _ name child upperMeets isChild =>
          obtain ⟨upperPath, sameRank⟩ := List.append_inj' samePath rfl
          obtain rfl := upperMeets.eq_of_path meets upperPath
          obtain rfl := List.singleton_inj.mp sameRank
          refine .inr ⟨_, Spot.mem_children.mpr ⟨_, child, ?_, rfl⟩, isNext⟩
          rw [List.getElem?_map, isChild]
          rfl

/-- What is passed on a way is met earlier. -/
theorem exists_of_mem_above (meets : tree.Meets spot) {handle : Handle}
    (isAbove : handle ∈ spot.above) :
    ∃ upper, tree.Meets upper ∧ upper.handle = handle ∧
      upper.path < spot.path := by
  induction meets with
  | root => cases isAbove
  | @child parent rank _ child parentMeets _ ih =>
      have isLater := parent.path_lt_child rank child
      rcases List.mem_cons.mp isAbove with rfl | isAbove
      · exact ⟨parent, parentMeets, rfl, isLater⟩
      · obtain ⟨upper, upperMeets, isHandle, isBefore⟩ := ih isAbove
        exact ⟨upper, upperMeets, isHandle, isBefore.trans isLater⟩

end Meets

/-- The walk goes on to the children of what it enters. -/
theorem visit_entry {spot : Spot} {pending : List Spot} {unseen : List Handle}
    (isUnseen : spot.handle ∈ unseen) :
    tree.visit unseen ((spot :: pending).map Spot.entry) =
      spot.entry :: tree.visit (unseen.erase spot.handle)
        ((tree.below spot ++ pending).map Spot.entry) := by
  have belowEntries : (tree.below spot).map Spot.entry =
      (tree.children spot.handle).map fun child =>
        (child.2, spot.above.length + 1) := by
    refine (Spot.map_children (fun handle above => (handle, above.length)) spot
      _).trans ?_
    rw [List.map_map]
    rfl
  rw [List.map_cons, Spot.entry, visit, if_pos isUnseen, List.map_append,
    belowEntries]

/-! ## Places that are broken -/

/-- A handle in the place leads nowhere, or the place has to be filled and is
not. -/
def IsBroken (tree : Tree α) (slot : Slot) : Prop :=
  (∃ child, slot.child = some child ∧ tree.node? child = none) ∨
    (slot.required = true ∧ slot.child = none)

variable {limit : Nat} {node : Node α}

theorem slotDefect?_eq_none_iff {slot : Slot} :
    tree.slotDefect? node slot = none ↔ ¬ tree.IsBroken slot := by
  unfold slotDefect? IsBroken
  cases slot.child with
  | none => simp
  | some child => cases isNode : tree.node? child <;> simp [isNode]

theorem slotsDefect?_eq_none_iff :
    tree.slotsDefect? node = none ↔
      ∀ slot ∈ node.construct.slots, ¬ tree.IsBroken slot := by
  rw [slotsDefect?, List.findSome?_eq_none_iff]
  simp only [List.mem_reverse, slotDefect?_eq_none_iff]

/-- Of the broken places of a node the last one is found. -/
theorem exists_last_of_slotsDefect {defect : Defect}
    (found : tree.slotsDefect? node = some defect) :
    ∃ earlier slot later, node.construct.slots = earlier ++ slot :: later ∧
      tree.slotDefect? node slot = some defect ∧
      (∀ other ∈ later, ¬ tree.IsBroken other) := by
  rw [slotsDefect?, List.findSome?_eq_some_iff] at found
  obtain ⟨after, slot, before, isSplit, isDefect, noneAfter⟩ := found
  refine ⟨before.reverse, slot, after.reverse, ?_, isDefect, ?_⟩
  · rw [← List.reverse_inj, isSplit]
    simp
  · intro other otherIn
    exact slotDefect?_eq_none_iff.mp (noneAfter other (List.mem_reverse.mp otherIn))

/-! ## What has been entered and what is to be -/

variable [Scalar α]

/-- What holds of a check at every step.  `met` are the spots of the nodes entered
so far, in their order, and `pending` those to be entered. -/
structure Scans (tree : Tree α) (limit : Nat) (met pending : List Spot)
    (unseen : List Handle) (ids : List NodeId) (steps : List Step) : Prop where
  metMeets : ∀ spot ∈ met, tree.Meets spot
  pendingMeets : ∀ spot ∈ pending, tree.Meets spot
  covers : ∀ spot, tree.Meets spot →
    spot ∈ met ∨ ∃ next ∈ pending, next.path <+: spot.path
  ordered : met.Pairwise fun first later => first.path < later.path
  apart : pending.Pairwise Spot.Before
  ahead : ∀ spot ∈ met, ∀ next ∈ pending, spot.path < next.path
  clean : ∀ spot ∈ met, ∃ node, tree.node? spot.handle = some node ∧
    tree.IsSound limit node spot.above ∧
    ∀ slot ∈ node.construct.slots, ¬ tree.IsBroken slot
  known : ∀ spot ∈ met, ∀ node, tree.node? spot.handle = some node → node.id ∈ ids
  identified : ∀ first ∈ met, ∀ second ∈ met, ∀ found other,
    tree.node? first.handle = some found → tree.node? second.handle = some other →
      found.id = other.id → first = second
  steps_eq : steps.filterMap Step.entered? =
    pending.map fun spot => (spot.handle, spot.above)
  walked : tree.walk =
    met.map Spot.entry ++ tree.visit unseen (pending.map Spot.entry)

namespace Scans

variable {root handle : Handle} {unseen ancestors : List Handle}
  {ids : List NodeId} {met pending : List Spot} {rest steps : List Step}

theorem begins (isRoot : tree.root = some root) :
    tree.Scans limit [] [⟨[], [], root⟩] (List.range tree.size) []
      [.enter root []] where
  metMeets := by simp
  pendingMeets := List.forall_mem_singleton.mpr (.root isRoot)
  covers := fun spot _ => .inr ⟨_, List.mem_singleton_self _, List.nil_prefix⟩
  ordered := .nil
  apart := List.pairwise_singleton _ _
  ahead := by simp
  clean := by simp
  known := by simp
  identified := by simp
  steps_eq := rfl
  walked := by
    rw [walk, isRoot]
    rfl

theorem leave (scans : tree.Scans limit met pending unseen ids
      (.leave handle :: rest)) : tree.Scans limit met pending unseen ids rest := by
  have steps_eq := scans.steps_eq
  rw [List.filterMap_cons_none rfl] at steps_eq
  exact { scans with steps_eq }

/-- What is entered next is met next. -/
theorem exists_cons (scans : tree.Scans limit met pending unseen ids
      (.enter handle ancestors :: rest)) :
    ∃ spot later, pending = spot :: later ∧ spot.handle = handle ∧
      spot.above = ancestors := by
  have steps_eq : (handle, ancestors) :: rest.filterMap Step.entered? =
      pending.map fun spot => (spot.handle, spot.above) := scans.steps_eq
  cases pending with
  | nil => cases steps_eq
  | cons spot later =>
      rw [List.map_cons, List.cons.injEq, Prod.mk.injEq] at steps_eq
      exact ⟨spot, later, rfl, steps_eq.1.1.symm, steps_eq.1.2.symm⟩

/-- What is entered next has a new identity. -/
theorem identified_next {spot : Spot} {later : List Spot}
    (scans : tree.Scans limit met (spot :: later) unseen ids steps)
    (isNode : tree.node? spot.handle = some node) (isNew : node.id ∉ ids) :
    ∀ first ∈ met ++ [spot], ∀ second ∈ met ++ [spot], ∀ found other,
      tree.node? first.handle = some found →
      tree.node? second.handle = some other → found.id = other.id →
      first = second := by
  have notKnown : ∀ earlier ∈ met, ∀ found, tree.node? earlier.handle = some found →
      found.id ≠ node.id := by
    intro earlier earlierIn found isFound same
    exact isNew (same ▸ scans.known earlier earlierIn found isFound)
  intro first firstIn second secondIn found other isFound isOther same
  rcases List.mem_append.mp firstIn with firstMet | isFirst <;>
    rcases List.mem_append.mp secondIn with secondMet | isSecond
  · exact scans.identified first firstMet second secondMet found other isFound
      isOther same
  · obtain rfl := List.mem_singleton.mp isSecond
    obtain rfl := Option.some.inj (isNode.symm.trans isOther)
    exact absurd same (notKnown first firstMet found isFound)
  · obtain rfl := List.mem_singleton.mp isFirst
    obtain rfl := Option.some.inj (isNode.symm.trans isFound)
    exact absurd same.symm (notKnown second secondMet other isOther)
  · rw [List.mem_singleton.mp isFirst, List.mem_singleton.mp isSecond]

theorem enter {spot : Spot} (scans : tree.Scans limit met (spot :: pending) unseen
      ids (.enter spot.handle spot.above :: rest))
    (isNode : tree.node? spot.handle = some node) (isUnseen : spot.handle ∈ unseen)
    (isNew : node.id ∉ ids)
    (noDefect : tree.defectOf? limit node spot.above = none)
    (noSlotDefect : tree.slotsDefect? node = none) :
    tree.Scans limit (met ++ [spot])
      (tree.below spot ++ pending) (unseen.erase spot.handle) (node.id :: ids)
      ((node.construct.children.map fun child =>
        Step.enter child.2 (spot.handle :: spot.above)) ++
          .leave spot.handle :: rest) := by
  have meets := scans.pendingMeets spot List.mem_cons_self
  obtain ⟨spotBefore, laterApart⟩ := List.pairwise_cons.mp scans.apart
  have isBefore : ∀ earlier ∈ met, earlier.path < spot.path :=
    fun earlier earlierIn => scans.ahead earlier earlierIn spot List.mem_cons_self
  have steps_eq : (spot.handle, spot.above) :: rest.filterMap Step.entered? =
      (spot :: pending).map fun spot => (spot.handle, spot.above) := scans.steps_eq
  constructor
  case metMeets =>
    exact List.forall_mem_append.mpr
      ⟨scans.metMeets, List.forall_mem_singleton.mpr meets⟩
  case pendingMeets =>
    exact List.forall_mem_append.mpr ⟨fun child => meets.of_mem_below,
      (List.forall_mem_cons.mp scans.pendingMeets).2⟩
  case covers =>
    intro other otherMeets
    rcases scans.covers other otherMeets with isMet | ⟨next, nextIn, isPrefix⟩
    · exact .inl (List.mem_append_left _ isMet)
    rcases List.mem_cons.mp nextIn with rfl | isLater
    · rcases meets.exists_below otherMeets isPrefix with
        rfl | ⟨child, isBelow, isPrefix⟩
      · exact .inl (List.mem_append_right _ (List.mem_singleton_self _))
      · exact .inr ⟨child, List.mem_append_left _ isBelow, isPrefix⟩
    · exact .inr ⟨next, List.mem_append_right _ isLater, isPrefix⟩
  case ordered =>
    refine List.pairwise_append.mpr
      ⟨scans.ordered, List.pairwise_singleton _ _, fun earlier earlierIn => ?_⟩
    exact List.forall_mem_singleton.mpr (isBefore earlier earlierIn)
  case apart =>
    refine List.pairwise_append.mpr ⟨spot.pairwise_children _, laterApart, ?_⟩
    intro child childIn later laterIn
    obtain ⟨rank, handle, -, rfl⟩ := Spot.mem_children.mp childIn
    exact (spotBefore later laterIn).child rank handle
  case ahead =>
    intro earlier earlierIn next nextIn
    have upTo : earlier.path ≤ spot.path := by
      rcases List.mem_append.mp earlierIn with isMet | isSpot
      · exact (isBefore earlier isMet).le
      · rw [List.mem_singleton.mp isSpot]
    rcases List.mem_append.mp nextIn with isChild | isLater
    · obtain ⟨rank, handle, -, rfl⟩ := Spot.mem_children.mp isChild
      exact lt_of_le_of_lt upTo (spot.path_lt_child rank handle)
    · exact lt_of_le_of_lt upTo (spotBefore next isLater).path_lt
  case clean =>
    refine List.forall_mem_append.mpr
      ⟨scans.clean, List.forall_mem_singleton.mpr ⟨node, isNode, ?_, ?_⟩⟩
    · exact isSound_of_defectOf noDefect
    · exact slotsDefect?_eq_none_iff.mp noSlotDefect
  case known =>
    refine List.forall_mem_append.mpr ⟨fun earlier earlierIn found isFound => ?_,
      List.forall_mem_singleton.mpr fun found isFound => ?_⟩
    · exact List.mem_cons_of_mem _ (scans.known earlier earlierIn found isFound)
    · obtain rfl := Option.some.inj (isNode.symm.trans isFound)
      exact List.mem_cons_self
  case identified => exact scans.identified_next isNode isNew
  case steps_eq =>
    rw [List.map_cons, List.cons.injEq] at steps_eq
    rw [Step.entered_below, steps_eq.2, List.map_append, below,
      Spot.map_children Prod.mk, children_of_node isNode, List.map_map]
    rfl
  case walked =>
    have metEntries : (met ++ [spot]).map Spot.entry =
        met.map Spot.entry ++ [spot.entry] := List.map_append
    rw [scans.walked, visit_entry isUnseen, metEntries, List.append_assoc,
      List.singleton_append]

/-- What is met up to the next spot has been entered, but for the node there. -/
theorem mem_met_iff {spot : Spot} {later : List Spot}
    (scans : tree.Scans limit met (spot :: later) unseen ids steps) {other : Spot} :
    other ∈ met ↔ tree.Meets other ∧ other.path < spot.path := by
  constructor
  · exact fun isMet => ⟨scans.metMeets other isMet,
      scans.ahead other isMet spot List.mem_cons_self⟩
  · rintro ⟨otherMeets, isBefore⟩
    rcases scans.covers other otherMeets with isMet | ⟨next, nextIn, isPrefix⟩
    · exact isMet
    · have upTo : spot.path ≤ next.path := by
        rcases List.mem_cons.mp nextIn with rfl | isLater
        · exact le_rfl
        · have before := (List.pairwise_cons.mp scans.apart).1 next isLater
          exact before.path_lt.le
      have notBefore : ¬ other.path < next.path := List.not_lt.mpr isPrefix.le
      exact absurd (lt_of_lt_of_le isBefore upTo) notBefore

end Scans

/-! ## What is reported -/

/-- A defect of a place is reported of a node.  The place is the last broken one,
so it is the first one only if there is no other.  The node is met first of all
with such a place, and whatever is met up to there is entered without a defect: it
is stored and sound, not below itself, not met twice, and its identity is new. -/
structure ReportedAt (tree : Tree α) (limit : Nat) (defect : Defect) (spot : Spot)
    (node : Node α) : Prop where
  meets : tree.Meets spot
  stored : tree.node? spot.handle = some node
  place : ∃ earlier slot later, node.construct.slots = earlier ++ slot :: later ∧
    tree.slotDefect? node slot = some defect ∧
    (∀ other ∈ later, ¬ tree.IsBroken other) ∧
    ((∀ other ∈ earlier, ¬ tree.IsBroken other) ↔
      ∀ other ∈ node.construct.slots, tree.IsBroken other → other = slot)
  sound : ∀ other, tree.Meets other → other.IsUpTo spot →
    ∃ found, tree.node? other.handle = some found ∧
      tree.IsSound limit found other.above
  acyclic : ∀ other, tree.Meets other → other.IsUpTo spot →
    other.handle ∉ other.above
  unshared : ∀ first second, tree.Meets first → tree.Meets second →
    first.IsUpTo spot → second.IsUpTo spot → first.handle = second.handle →
    first = second
  identified : ∀ first second found other, tree.Meets first → tree.Meets second →
    first.IsUpTo spot → second.IsUpTo spot →
    tree.node? first.handle = some found → tree.node? second.handle = some other →
    found.id = other.id → first = second
  filled : ∀ other found, tree.Meets other → other.path < spot.path →
    tree.node? other.handle = some found →
    ∀ slot ∈ found.construct.slots, ¬ tree.IsBroken slot
  walked : ∃ (before : List Spot) (after : List (Handle × Nat)),
    tree.walk = before.map Spot.entry ++ spot.entry :: after ∧
      before.Pairwise (fun first later => first.path < later.path) ∧
      ∀ other, other ∈ before ↔ tree.Meets other ∧ other.path < spot.path

omit [Scalar α] in
/-- The reported place is the first one if it is the only one. -/
theorem exists_place_of_slotsDefect {defect : Defect}
    (found : tree.slotsDefect? node = some defect) :
    ∃ earlier slot later, node.construct.slots = earlier ++ slot :: later ∧
      tree.slotDefect? node slot = some defect ∧
      (∀ other ∈ later, ¬ tree.IsBroken other) ∧
      ((∀ other ∈ earlier, ¬ tree.IsBroken other) ↔
        ∀ other ∈ node.construct.slots, tree.IsBroken other → other = slot) := by
  obtain ⟨earlier, slot, later, isSplit, isDefect, noneLater⟩ :=
    exists_last_of_slotsDefect found
  refine ⟨earlier, slot, later, isSplit, isDefect, noneLater, ?_, ?_⟩
  · intro noneEarlier other otherIn broken
    rw [isSplit] at otherIn
    rcases List.mem_append.mp otherIn with isEarlier | isLater
    · exact absurd broken (noneEarlier other isEarlier)
    rcases List.mem_cons.mp isLater with rfl | isLater
    · rfl
    · exact absurd broken (noneLater other isLater)
  · intro only other otherIn broken
    obtain rfl := only other (isSplit ▸ List.mem_append_left _ otherIn) broken
    have distinct := slotNames_nodup node.construct
    rw [isSplit, List.map_append, List.map_cons, List.nodup_append] at distinct
    exact distinct.2.2 _ (List.mem_map_of_mem otherIn) _ List.mem_cons_self rfl

theorem not_isOfPlace_of_defectOf {above : List Handle} {defect : Defect}
    (found : tree.defectOf? limit node above = some defect) :
    ¬ defect.IsOfPlace := by
  unfold defectOf? at found
  split at found
  · cases found
    rintro ⟨⟩
  split at found
  · cases found
    rintro ⟨⟩
  split at found
  · cases found
    rintro ⟨⟩
  split at found
  · cases found
    rintro ⟨⟩
  · cases found

/-- Where the scan has come to a broken place, it is reported as said. -/
theorem Scans.reportedAt {met later : List Spot} {unseen : List Handle}
    {ids : List NodeId} {steps : List Step} {spot : Spot} {defect : Defect}
    (scans : tree.Scans limit met (spot :: later) unseen ids steps)
    (isNode : tree.node? spot.handle = some node)
    (isUnseen : spot.handle ∈ unseen) (isNew : node.id ∉ ids)
    (noDefect : tree.defectOf? limit node spot.above = none)
    (found : tree.slotsDefect? node = some defect) :
    tree.ReportedAt limit defect spot node := by
  have isMet : ∀ other, tree.Meets other → other.IsUpTo spot →
      other ∈ met ++ [spot] := by
    rintro other otherMeets (isBefore | rfl)
    · exact List.mem_append_left _ (scans.mem_met_iff.mpr ⟨otherMeets, isBefore⟩)
    · exact List.mem_append_right _ (List.mem_singleton_self _)
  have sound : ∀ other, tree.Meets other → other.IsUpTo spot →
      ∃ found, tree.node? other.handle = some found ∧
        tree.IsSound limit found other.above := by
    intro other otherMeets upTo
    rcases List.mem_append.mp (isMet other otherMeets upTo) with otherIn | isSpot
    · obtain ⟨found, isFound, isSound, -⟩ := scans.clean other otherIn
      exact ⟨found, isFound, isSound⟩
    · rw [List.mem_singleton.mp isSpot]
      exact ⟨node, isNode, isSound_of_defectOf noDefect⟩
  have unshared : ∀ first second, tree.Meets first → tree.Meets second →
      first.IsUpTo spot → second.IsUpTo spot → first.handle = second.handle →
      first = second := by
    intro first second firstMeets secondMeets firstUpTo secondUpTo same
    obtain ⟨found, isFound, -⟩ := sound first firstMeets firstUpTo
    exact scans.identified_next isNode isNew first
      (isMet first firstMeets firstUpTo) second
      (isMet second secondMeets secondUpTo) found found isFound (same ▸ isFound) rfl
  refine ⟨scans.pendingMeets spot List.mem_cons_self, isNode,
    exists_place_of_slotsDefect found, sound, ?acyclic, unshared, ?identified,
    ?filled, ?walked⟩
  case acyclic =>
    intro other otherMeets upTo isAbove
    obtain ⟨upper, upperMeets, isHandle, isBefore⟩ :=
      otherMeets.exists_of_mem_above isAbove
    have upperUpTo : upper.IsUpTo spot := by
      rcases upTo with isEarlier | rfl
      · exact .inl (isBefore.trans isEarlier)
      · exact .inl isBefore
    obtain rfl := unshared upper other upperMeets otherMeets upperUpTo upTo isHandle
    exact lt_irrefl _ isBefore
  case identified =>
    intro first second found other firstMeets secondMeets firstUpTo secondUpTo
    exact scans.identified_next isNode isNew first
      (isMet first firstMeets firstUpTo) second
      (isMet second secondMeets secondUpTo) found other
  case filled =>
    intro other found otherMeets isBefore isFound
    obtain ⟨same, isSame, -, noneBroken⟩ :=
      scans.clean other (scans.mem_met_iff.mpr ⟨otherMeets, isBefore⟩)
    obtain rfl := Option.some.inj (isSame.symm.trans isFound)
    exact noneBroken
  case walked =>
    have walked := scans.walked
    rw [visit_entry isUnseen] at walked
    exact ⟨met, _, walked, scans.ordered, fun other => scans.mem_met_iff⟩

/-- A check that reports a place has come to a spot as said. -/
theorem check_reports {unseen path : List Handle} {ids : List NodeId}
    {steps : List Step} {defect : Defect}
    (scans : ∃ met pending, tree.Scans limit met pending unseen ids steps)
    (refused : tree.check limit unseen path ids steps = .error defect)
    (ofPlace : defect.IsOfPlace) :
    ∃ spot node, tree.ReportedAt limit defect spot node := by
  fun_induction check tree limit unseen path ids steps with
  | case1 unseen path ids => cases refused
  | case2 unseen path ids handle rest ih =>
      obtain ⟨met, pending, scans⟩ := scans
      exact ih ⟨met, pending, scans.leave⟩ refused
  | case3 unseen path ids handle ancestors rest missing =>
      cases refused
      cases ofPlace
  | case4 unseen path ids handle ancestors rest node isNode onPath =>
      cases refused
      cases ofPlace
  | case5 unseen path ids handle ancestors rest node isNode _ isUnseen known =>
      cases refused
      cases ofPlace
  | case6 unseen path ids handle ancestors rest node isNode _ _ _ own found =>
      cases refused
      exact absurd ofPlace (not_isOfPlace_of_defectOf found)
  | case7 unseen path ids handle ancestors rest node isNode _ isUnseen isNew
      noDefect own found =>
      cases refused
      obtain ⟨met, pending, scans⟩ := scans
      obtain ⟨spot, later, rfl, rfl, rfl⟩ := scans.exists_cons
      exact ⟨spot, node, scans.reportedAt isNode isUnseen isNew noDefect found⟩
  | case8 unseen path ids handle ancestors rest node isNode _ isUnseen isNew
      noDefect filled below ih =>
      obtain ⟨met, pending, scans⟩ := scans
      obtain ⟨spot, later, rfl, rfl, rfl⟩ := scans.exists_cons
      exact ih ⟨_, _, scans.enter isNode isUnseen isNew noDefect filled⟩ refused
  | case9 unseen path ids handle ancestors rest node isNode offPath isSeen =>
      cases refused
      cases ofPlace

/-- A place that validation reports is the last broken place of the first node that
has one, and nothing else is wrong up to this node. -/
theorem reported_place {defect : Defect}
    (refused : tree.validate limit = .error defect) (ofPlace : defect.IsOfPlace) :
    ∃ spot node, tree.ReportedAt limit defect spot node := by
  unfold validate at refused
  split at refused
  · cases refused
    cases ofPlace
  · rename_i root isRoot
    split at refused
    · cases refused
      cases ofPlace
    · exact check_reports ⟨[], _, .begins isRoot⟩ refused ofPlace

/-- A block that ends in a decision whose one branch is empty and whose other branch
leads nowhere. -/
def brokenDecision : Tree Rat :=
  ⟨#[⟨⟨"main", "", none⟩, .block [1, 2]⟩,
    ⟨⟨"note", "x", none⟩, .statement .expression⟩,
    ⟨⟨"if", "c", none⟩, .decision none (some 7)⟩], some 0⟩

theorem reported_place_brokenDecision :
    brokenDecision.validate 64 = .error (.danglingReference "if" .alternative 7) ∧
      Defect.IsOfPlace (.danglingReference "if" .alternative 7) ∧
      ∃ spot node, brokenDecision.ReportedAt 64
        (.danglingReference "if" .alternative 7) spot node := by
  have refused : brokenDecision.validate 64 =
      .error (.danglingReference "if" .alternative 7) := by cbv
  have ofPlace : Defect.IsOfPlace (.danglingReference "if" .alternative 7) :=
    .danglingReference _ _ _
  exact ⟨refused, ofPlace, reported_place refused ofPlace⟩

/-- Of the two broken places of the decision the second is reported. -/
theorem not_all_first_places_reported :
    ¬ ∀ (tree : Tree Rat) (limit : Nat) (defect : Defect) (spot : Spot)
        (node : Node Rat) (earlier later : List Slot) (slot : Slot),
      tree.validate limit = .error defect → tree.Meets spot →
      tree.node? spot.handle = some node →
      node.construct.slots = earlier ++ slot :: later →
      tree.slotDefect? node slot = some defect →
      ∀ other ∈ earlier, ¬ tree.IsBroken other := by
  intro all
  have isSecond : (brokenDecision.children 0)[1]? = some (.member 1, 2) := rfl
  have meets : brokenDecision.Meets ⟨[1], [0], 2⟩ := .child (.root rfl) isSecond
  have noneEarlier := all brokenDecision 64 (.danglingReference "if" .alternative 7)
    ⟨[1], [0], 2⟩ ⟨⟨"if", "c", none⟩, .decision none (some 7)⟩
    [⟨.consequent, none, true⟩] [] ⟨.alternative, some 7, false⟩
    (by cbv) meets rfl rfl rfl
  exact noneEarlier _ (List.mem_singleton_self _) (.inr ⟨rfl, rfl⟩)

end Tree

end Flowchart
