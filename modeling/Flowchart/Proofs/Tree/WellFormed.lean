import Flowchart.Proofs.Tree.Located

/-!
# What validation tells

A tree that passes validation stores one program: every node of it lies at a
handle of its own, no two have one identity, and no node has a defect.  The
check goes through a list of steps; the programs of the handles that are still
to be entered are put together from those that the rest of the check finds.
-/

namespace Flowchart

namespace Program

variable {α : Type}

def handles (program : Located α) : List Handle := program.preorder.map handle

def identities (program : Located α) : List NodeId :=
  program.preorder.map identity

theorem handles_eq (program : Located α) :
    program.handles = program.handle :: program.children.flatMap handles := by
  rw [handles, preorder_eq, List.map_cons, List.map_flatMap]
  rfl

theorem identities_eq (program : Located α) :
    program.identities =
      program.identity :: program.children.flatMap identities := by
  rw [identities, preorder_eq, List.map_cons, List.map_flatMap]
  rfl

end Program

namespace Tree

variable {α : Type}

/-! ## One node -/

theorem filled_of_slotsDefect {tree : Tree α} {node : Node α}
    (sound : tree.slotsDefect? node = none) {slot : Slot}
    (slotIn : slot ∈ node.construct.slots) (required : slot.required = true) :
    ∃ child, slot.child = some child := by
  rw [slotsDefect?, List.findSome?_eq_none_iff] at sound
  have noDefect := sound slot (List.mem_reverse.mpr slotIn)
  unfold slotDefect? at noDefect
  cases filled : slot.child with
  | some child => exact ⟨child, rfl⟩
  | none => simp [filled, required] at noDefect

private theorem arms_of_filled (arms : List Arm)
    (filled : ∀ arm ∈ arms, ∃ child, arm.body = some child)
    (children : List (Located α))
    (match_ : arms.filterMap Arm.body = children.map Program.handle) :
    ∃ pairs : List (String × Located α),
      pairs.map Prod.snd = children ∧
        (pairs.map fun pair => (⟨pair.1, some pair.2.handle⟩ : Arm)) = arms := by
  induction arms generalizing children with
  | nil =>
      obtain rfl : children = [] := by simpa using match_.symm
      exact ⟨[], rfl, rfl⟩
  | cons arm rest ih =>
      obtain ⟨child, armFilled⟩ := filled arm List.mem_cons_self
      rw [List.filterMap_cons_some armFilled] at match_
      cases children with
      | nil => simp at match_
      | cons first others =>
          rw [List.map_cons, List.cons.injEq] at match_
          obtain ⟨pairs, bodies, rebuilt⟩ := ih
            (fun other otherIn => filled other (List.mem_cons_of_mem _ otherIn))
            others match_.2
          refine ⟨(arm.pattern, first) :: pairs, by simp [bodies], ?_⟩
          simp only [List.map_cons, rebuilt, ← match_.1, ← armFilled]

private theorem filterMap_child_mapIdx {β : Type} (items : List β)
    (slot : Nat → β → Slot) (child : β → Option Handle)
    (isChild : ∀ index item, (slot index item).child = child item) :
    (items.mapIdx slot).filterMap Slot.child = items.filterMap child := by
  induction items generalizing slot with
  | nil => rfl
  | cons item rest ih =>
      rw [List.mapIdx_cons, List.filterMap_cons, List.filterMap_cons, isChild,
        ih _ fun index => isChild (index + 1)]

private theorem handles_children (construct : Construct) :
    construct.children.map Prod.snd = construct.slots.filterMap Slot.child := by
  rw [Construct.children, List.map_filterMap]
  refine List.filterMap_congr fun slot _ => ?_
  cases slot.child <;> rfl

/-- A node without a defect in its places is the root of a program over the
programs of its children. -/
theorem exists_located {tree : Tree α} {node : Node α} (handle : Handle)
    (sound : tree.slotsDefect? node = none) (children : List (Located α))
    (match_ : node.construct.children.map Prod.snd =
      children.map Program.handle) :
    ∃ program : Located α, program.handle = handle ∧ program.node = node ∧
      program.children = children := by
  have filled : ∀ slot ∈ node.construct.slots, slot.required = true →
      ∃ child, slot.child = some child :=
    fun slot slotIn required => filled_of_slotsDefect sound slotIn required
  rw [handles_children] at match_
  obtain ⟨label, construct⟩ := node
  cases construct with
  | statement kind =>
      obtain rfl := List.map_eq_nil_iff.mp match_.symm
      exact ⟨.statement (handle, label) kind, rfl, rfl, rfl⟩
  | result =>
      obtain rfl := List.map_eq_nil_iff.mp match_.symm
      exact ⟨.result (handle, label), rfl, rfl, rfl⟩
  | typeDefinition =>
      obtain rfl := List.map_eq_nil_iff.mp match_.symm
      exact ⟨.typeDefinition (handle, label), rfl, rfl, rfl⟩
  | block members =>
      obtain rfl : members = children.map Program.handle := by
        rw [← match_, Construct.slots,
          filterMap_child_mapIdx members _ some fun _ _ => rfl,
          List.filterMap_some]
      exact ⟨.block (handle, label) children, rfl, rfl, rfl⟩
  | decision consequent alternative =>
      obtain ⟨child, rfl⟩ := filled ⟨.consequent, consequent, true⟩
        List.mem_cons_self rfl
      cases alternative with
      | none =>
          obtain ⟨first, rfl, rfl⟩ := List.map_eq_singleton_iff.mp match_.symm
          exact ⟨.decision (handle, label) first none, rfl, rfl, rfl⟩
      | some other =>
          obtain ⟨first, others, rfl, rfl, isOther⟩ :=
            List.map_eq_cons_iff.mp match_.symm
          obtain ⟨second, rfl, rfl⟩ := List.map_eq_singleton_iff.mp isOther
          exact ⟨.decision (handle, label) first (some second), rfl, rfl, rfl⟩
  | selection arms =>
      have armsFilled : ∀ arm ∈ arms, ∃ child, arm.body = some child := by
        intro arm armIn
        obtain ⟨index, inside, rfl⟩ := List.mem_iff_getElem.mp armIn
        exact filled ⟨.arm index, arms[index].body, true⟩
          (List.mem_mapIdx.mpr ⟨index, inside, rfl⟩) rfl
      rw [Construct.slots, filterMap_child_mapIdx arms _ Arm.body fun _ _ => rfl]
        at match_
      obtain ⟨pairs, rfl, rfl⟩ := arms_of_filled arms armsFilled children match_
      exact ⟨.selection (handle, label) pairs, rfl, rfl, rfl⟩
  | loop kind body =>
      obtain ⟨child, rfl⟩ := filled ⟨.body, body, true⟩ List.mem_cons_self rfl
      obtain ⟨first, rfl, rfl⟩ := List.map_eq_singleton_iff.mp match_.symm
      exact ⟨.loop (handle, label) kind first, rfl, rfl, rfl⟩
  | container kind body =>
      obtain ⟨child, rfl⟩ := filled ⟨.body, body, true⟩ List.mem_cons_self rfl
      obtain ⟨first, rfl, rfl⟩ := List.map_eq_singleton_iff.mp match_.symm
      exact ⟨.container (handle, label) kind first, rfl, rfl, rfl⟩

/-! ## The whole tree -/

/-- The tree has the program below its root, each node at a handle and with an
identity of its own. -/
structure Bears (tree : Tree α) (program : Located α) : Prop where
  root : tree.root = some program.handle
  holds : tree.Holds program
  handlesNodup : program.handles.Nodup
  identitiesNodup : program.identities.Nodup

/-- A tree has at least as many nodes as the program below its root. -/
theorem Bears.length_preorder_le {tree : Tree α} {program : Located α}
    (bears : tree.Bears program) : program.preorder.length ≤ tree.size := by
  have inside : program.handles ⊆ List.range tree.size := fun _ handleIn =>
    List.mem_range.mpr (bears.holds.lt_size handleIn)
  have fewer := (List.subperm_of_subset bears.handlesNodup inside).length_le
  rwa [Program.handles, List.length_map, List.length_range] at fewer

/-- Seen from one of its nodes a tree has the program below this node. -/
theorem Bears.setRoot {tree : Tree α} {program node : Located α}
    (bears : tree.Bears program) (nodeIn : node ∈ program.preorder) :
    (tree.setRoot node.handle).Bears node where
  root := rfl
  holds := fun inner innerIn =>
    bears.holds inner (Program.mem_preorder_trans nodeIn innerIn)
  handlesNodup :=
    bears.handlesNodup.sublist ((Program.preorder_sublist nodeIn).map _)
  identitiesNodup :=
    bears.identitiesNodup.sublist ((Program.preorder_sublist nodeIn).map _)

variable [Scalar α]

/-- No node of the program has a defect of its own, where the root lies below
the given ancestors. -/
def Clean (tree : Tree α) (limit : Nat) (ancestors : List Handle)
    (program : Located α) : Prop :=
  ∀ above node, program.Stands above node →
    tree.defectOf? limit node.node
      (above.map Program.handle ++ ancestors) = none

/-- The tree stores the program below its root, and is well formed. -/
structure Stores (tree : Tree α) (limit : Nat) (program : Located α) :
    Prop extends tree.Bears program where
  clean : tree.Clean limit [] program

/-- Programs for a list of handles, each given with those above it, that are
stored apart from each other in the unseen part of the tree and bring only new
identities. -/
structure Grows (tree : Tree α) (limit : Nat) (unseen : List Handle)
    (ids : List NodeId) (entered : List (Handle × List Handle))
    (programs : List (Located α)) : Prop where
  matched : List.Forall₂
    (fun entry program => program.handle = entry.1 ∧ tree.Holds program ∧
      tree.Clean limit entry.2 program) entered programs
  handlesNodup : (programs.flatMap Program.handles).Nodup
  handlesUnseen : ∀ handle ∈ programs.flatMap Program.handles, handle ∈ unseen
  identitiesNodup : (programs.flatMap Program.identities).Nodup
  identitiesNew : ∀ id ∈ programs.flatMap Program.identities, id ∉ ids

namespace Step

/-- The handle that a step enters, with those above it. -/
def entered? : Step → Option (Handle × List Handle)
  | .enter handle ancestors => some (handle, ancestors)
  | .leave _ => none

/-- Below a node its children are entered, before what is left to do. -/
theorem entered_below (children : List (SlotName × Handle)) (handle : Handle)
    (ancestors : List Handle) (rest : List Step) :
    ((children.map fun child => Step.enter child.2 (handle :: ancestors)) ++
        Step.leave handle :: rest).filterMap entered? =
      (children.map fun child => (child.2, handle :: ancestors)) ++
        rest.filterMap entered? := by
  rw [List.filterMap_append, List.filterMap_map, List.filterMap_cons_none rfl]
  simp [Function.comp_def, entered?]

end Step

private theorem forall₂_append_left {β γ : Type} {related : β → γ → Prop}
    {first second : List β} {items : List γ}
    (matched : List.Forall₂ related (first ++ second) items) :
    ∃ left right, items = left ++ right ∧ List.Forall₂ related first left ∧
      List.Forall₂ related second right := by
  refine ⟨items.take first.length, items.drop first.length,
    (List.take_append_drop _ _).symm, ?_, ?_⟩
  · simpa using List.forall₂_take first.length matched
  · simpa using List.forall₂_drop first.length matched

/-- A node that the check enters takes the programs of its children, which come
first in what is left to do, as its own. -/
theorem Grows.enter {tree : Tree α} {limit : Nat} {unseen : List Handle}
    {ids : List NodeId} {handle : Handle} {ancestors : List Handle}
    {rest : List (Handle × List Handle)} {node : Node α}
    {programs : List (Located α)}
    (grows : tree.Grows limit (unseen.erase handle) (node.id :: ids)
      ((node.construct.children.map fun child =>
        (child.2, handle :: ancestors)) ++ rest) programs)
    (unseenNodup : unseen.Nodup)
    (stored : tree.node? handle = some node) (isUnseen : handle ∈ unseen)
    (isNew : node.id ∉ ids)
    (sound : tree.defectOf? limit node ancestors = none)
    (filled : tree.slotsDefect? node = none) :
    ∃ grown, tree.Grows limit unseen ids ((handle, ancestors) :: rest)
      grown := by
  obtain ⟨matched, handlesNodup, handlesUnseen, identitiesNodup,
    identitiesNew⟩ := grows
  obtain ⟨children, others, rfl, childrenMatched, othersMatched⟩ :=
    forall₂_append_left matched
  rw [List.forall₂_map_left_iff] at childrenMatched
  have sameHandles : node.construct.children.map Prod.snd =
      children.map Program.handle := by
    rw [← List.forall₂_eq_eq_eq, List.forall₂_map_left_iff,
      List.forall₂_map_right_iff]
    exact childrenMatched.imp fun entry program related => related.1.symm
  have childSound : ∀ child ∈ children, tree.Holds child ∧
      tree.Clean limit (handle :: ancestors) child := by
    intro child childIn
    obtain ⟨index, inside, rfl⟩ := List.mem_iff_getElem.mp childIn
    have entryInside : index < node.construct.children.length := by
      rwa [childrenMatched.length_eq]
    exact (childrenMatched.get entryInside inside).2
  obtain ⟨program, rfl, rfl, rfl⟩ :=
    exists_located handle filled children sameHandles
  rw [List.flatMap_append] at handlesNodup handlesUnseen
  rw [List.flatMap_append] at identitiesNodup identitiesNew
  refine ⟨program :: others, ⟨.cons ⟨rfl, ?holds, ?clean⟩ othersMatched,
    ?_, ?_, ?_, ?_⟩⟩
  case holds =>
    intro node nodeIn
    rcases Program.mem_preorder_iff.mp nodeIn with
      rfl | ⟨child, childIn, inChild⟩
    · exact stored
    · exact (childSound child childIn).1 node inChild
  case clean =>
    intro above node stands
    rcases stands.cases_root with
      ⟨rfl, rfl⟩ | ⟨child, childIn, between, rfl, inChild⟩
    · exact sound
    · have childClean := (childSound child childIn).2 between node inChild
      simpa using childClean
  all_goals
    simp only [List.flatMap_cons, Program.handles_eq program,
      Program.identities_eq program, List.cons_append]
  · refine List.nodup_cons.mpr ⟨fun again => ?_, handlesNodup⟩
    exact (unseenNodup.mem_erase_iff.mp (handlesUnseen _ again)).1 rfl
  · intro other otherIn
    rcases List.mem_cons.mp otherIn with rfl | otherIn
    · exact isUnseen
    · exact List.mem_of_mem_erase (handlesUnseen other otherIn)
  · refine List.nodup_cons.mpr ⟨fun again => ?_, identitiesNodup⟩
    exact identitiesNew _ again List.mem_cons_self
  · intro id idIn
    rcases List.mem_cons.mp idIn with rfl | idIn
    · exact isNew
    · exact fun known => identitiesNew id idIn (List.mem_cons_of_mem _ known)

/-- An accepted list of steps enters programs that lie apart. -/
theorem check_grows {tree : Tree α} {limit : Nat} {unseen path : List Handle}
    {ids : List NodeId} {steps : List Step} (unseenNodup : unseen.Nodup)
    (accepted : tree.check limit unseen path ids steps = .ok ()) :
    ∃ programs, tree.Grows limit unseen ids (steps.filterMap Step.entered?)
      programs := by
  fun_induction check tree limit unseen path ids steps with
  | case1 unseen path ids =>
      exact ⟨[], .nil, List.nodup_nil, by simp, List.nodup_nil, by simp⟩
  | case2 unseen path ids handle rest ih => exact ih unseenNodup accepted
  | case8 unseen path ids handle ancestors rest node stored _ isUnseen isNew
      sound filled below ih =>
      obtain ⟨programs, grows⟩ := ih (unseenNodup.erase handle) accepted
      have inner : tree.Grows limit (unseen.erase handle) (node.id :: ids)
          ((node.construct.children.map fun child =>
            (child.2, handle :: ancestors)) ++
            rest.filterMap Step.entered?) programs :=
        Step.entered_below .. ▸ grows
      exact inner.enter unseenNodup stored isUnseen isNew sound filled
  | _ => simp_all

/-- A tree that passes validation stores a program. -/
theorem exists_stores {tree : Tree α} {limit : Nat}
    (accepted : tree.validate limit = .ok ()) :
    ∃ program, tree.Stores limit program := by
  unfold validate at accepted
  split at accepted
  · cases accepted
  · rename_i root rooted
    split at accepted
    · cases accepted
    · obtain ⟨programs, matched, handlesNodup, _, identitiesNodup, _⟩ :=
        check_grows List.nodup_range accepted
      cases matched with
      | cons head rest =>
          cases rest
          rw [List.flatMap_cons, List.flatMap_nil, List.append_nil]
            at handlesNodup identitiesNodup
          obtain ⟨atRoot, holds, clean⟩ := head
          exact ⟨_, ⟨by rw [rooted, atRoot], holds, handlesNodup,
            identitiesNodup⟩, clean⟩

end Tree

end Flowchart
