import Flowchart.Proofs.Results
import Flowchart.Proofs.Tree.WellFormed

/-!
# Validation with another limit

A tree that is well formed with one limit can only be too deep for another one.
Validation then names the first of the nodes that lie right below the limit, and
it accepts the tree if there is none.
-/

namespace Flowchart

namespace Program

variable {L M : Type}

/-- The first node that lies so many levels below the root. -/
def level? : Nat → Program L → Option (Program L)
  | 0, program => some program
  | depth + 1, program => program.children.findSome? (level? depth)

end Program

namespace Tree

variable {α : Type} [Scalar α]

/-! ## One node -/

/-- A node that has no defect within some limit can only be too deep for another
one. -/
theorem defectOf?_eq {tree : Tree α} {node : Node α} {deep : Nat}
    {ancestors : List Handle}
    (sound : tree.defectOf? deep node ancestors = none) (limit : Nat) :
    tree.defectOf? limit node ancestors =
      if limit < ancestors.length then some (.tooDeep node.id limit)
      else none := by
  unfold defectOf? at sound ⊢
  by_cases modest : node.hasValidHint = true
  · by_cases tooDeep : deep < ancestors.length
    · simp [modest, tooDeep] at sound
    · rw [if_neg (by simpa using modest), if_neg tooDeep] at sound
      rw [if_neg (by simpa using modest), sound]
  · simp [modest] at sound

omit [Scalar α] in
theorem Holds.slotsDefect?_eq_none {tree : Tree α} {program : Located α}
    (holds : tree.Holds program) : tree.slotsDefect? program.node = none := by
  rw [slotsDefect?, List.findSome?_eq_none_iff]
  intro slot slotIn
  unfold slotDefect?
  rcases Program.filled_or_optional (List.mem_reverse.mp slotIn) with
    ⟨child, childIn, isChild⟩ | ⟨isEmpty, optional⟩
  · simp only [isChild, (holds.child childIn).root, Option.isNone_some]
    rfl
  · simp only [isEmpty, optional]
    rfl

/-! ## Step by step -/

/-- A node that is entered leaves the programs of its children to be entered. -/
theorem Grows.descend {tree : Tree α} {deep : Nat} {unseen : List Handle}
    {ids : List NodeId} {ancestors : List Handle}
    {rest : List (Handle × List Handle)} {program : Located α}
    {others : List (Located α)}
    (grows : tree.Grows deep unseen ids ((program.handle, ancestors) :: rest)
      (program :: others)) :
    tree.Grows deep (unseen.erase program.handle) (program.identity :: ids)
      ((program.construct.children.map fun child =>
        (child.2, program.handle :: ancestors)) ++ rest)
      (program.children ++ others) := by
  obtain ⟨matched, handlesNodup, handlesUnseen, identitiesNodup,
    identitiesNew⟩ := grows
  obtain ⟨⟨-, holds, clean⟩, othersMatched⟩ := List.forall₂_cons.mp matched
  rw [List.flatMap_cons, Program.handles_eq, List.cons_append,
    ← List.flatMap_append] at handlesNodup handlesUnseen
  rw [List.flatMap_cons, Program.identities_eq, List.cons_append,
    ← List.flatMap_append] at identitiesNodup identitiesNew
  obtain ⟨handleNew, handlesNodup⟩ := List.nodup_cons.mp handlesNodup
  obtain ⟨identityNew, identitiesNodup⟩ := List.nodup_cons.mp identitiesNodup
  have childClean : ∀ child ∈ program.children,
      tree.Clean deep (program.handle :: ancestors) child := by
    intro child childIn above node stands
    have sound := clean _ node (stands.inside childIn)
    simpa using sound
  have sameHandles := program.handles_construct
  rw [← List.forall₂_eq_eq_eq, List.forall₂_map_left_iff,
    List.forall₂_map_right_iff] at sameHandles
  have childrenMatched : List.Forall₂
      (fun (entry : Handle × List Handle) (child : Located α) =>
        child.handle = entry.1 ∧ tree.Holds child ∧
          tree.Clean deep entry.2 child)
      (program.construct.children.map fun child =>
        (child.2, program.handle :: ancestors))
      program.children := by
    rw [List.forall₂_map_left_iff, List.forall₂_iff_get]
    refine ⟨sameHandles.length_eq, fun index inside insideToo => ?_⟩
    have childIn := List.get_mem program.children ⟨index, insideToo⟩
    exact ⟨(sameHandles.get inside insideToo).symm, holds.child childIn,
      childClean _ childIn⟩
  refine ⟨List.rel_append childrenMatched othersMatched, handlesNodup, ?_,
    identitiesNodup, ?_⟩
  · intro handle handleIn
    have different : handle ≠ program.handle := by
      rintro rfl
      exact handleNew handleIn
    exact (List.mem_erase_of_ne different).mpr
      (handlesUnseen handle (List.mem_cons_of_mem _ handleIn))
  · intro id idIn known
    rcases List.mem_cons.mp known with rfl | known
    · exact identityNew idIn
    · exact identitiesNew id (List.mem_cons_of_mem _ idIn) known

/-- The verdict on programs of which the given node is the first too deep. -/
def depthVerdict (limit : Nat) (first : Option (Located α)) :
    Except Defect Unit :=
  match first with
  | some node => .error (.tooDeep node.identity limit)
  | none => .ok ()

/-- The first node that is too deep in programs that are entered below the given
handles. -/
def firstTooDeep? (limit : Nat) (entered : List (Handle × List Handle))
    (programs : List (Located α)) : Option (Located α) :=
  (entered.zip programs).findSome? fun (entry, program) =>
    program.level? (limit + 1 - entry.2.length)

section

variable {limit : Nat} {ancestors : List Handle}
  {rest : List (Handle × List Handle)} {program : Located α}
  {others : List (Located α)}

omit [Scalar α]

theorem firstTooDeep?_cons (entry : Handle × List Handle) :
    firstTooDeep? limit (entry :: rest) (program :: others) =
      (program.level? (limit + 1 - entry.2.length)).or
        (firstTooDeep? limit rest others) :=
  findSome?_cons_or _ _ _

theorem firstTooDeep?_append {entered : List (Handle × List Handle)}
    {programs : List (Located α)} (same : entered.length = programs.length) :
    firstTooDeep? limit (entered ++ rest) (programs ++ others) =
      (firstTooDeep? limit entered programs).or
        (firstTooDeep? limit rest others) := by
  rw [firstTooDeep?, List.zip_append same, List.findSome?_append]
  rfl

/-- A root that lies too deep is the first node that does. -/
theorem firstTooDeep?_root (tooDeep : limit < ancestors.length) :
    firstTooDeep? limit ((program.handle, ancestors) :: rest)
      (program :: others) = some program := by
  have noneLeft : limit + 1 - ancestors.length = 0 := by omega
  rw [firstTooDeep?_cons, noneLeft, Program.level?, Option.some_or]

/-- Below a root that does not lie too deep its children are looked at. -/
theorem firstTooDeep?_descend (shallow : ¬ limit < ancestors.length) :
    firstTooDeep? limit ((program.handle, ancestors) :: rest)
        (program :: others) =
      firstTooDeep? limit
        ((program.construct.children.map fun child =>
          (child.2, program.handle :: ancestors)) ++ rest)
        (program.children ++ others) := by
  have oneLess : limit + 1 - ancestors.length =
      limit + 1 - (ancestors.length + 1) + 1 := by omega
  have sameLength :
      program.construct.children.length = program.children.length := by
    simpa using congrArg List.length program.handles_construct
  have paired : (program.construct.children.zip program.children).map Prod.snd =
      program.children :=
    List.map_snd_zip (Nat.le_of_eq sameLength.symm)
  have children : firstTooDeep? limit
        (program.construct.children.map fun child =>
          (child.2, program.handle :: ancestors)) program.children =
      program.children.findSome?
        (Program.level? (limit + 1 - (ancestors.length + 1))) := by
    conv_rhs => rw [← paired]
    rw [firstTooDeep?, List.zip_map_left, List.findSome?_map, List.findSome?_map]
    rfl
  rw [firstTooDeep?_cons, firstTooDeep?_append (by simpa using sameLength),
    children, oneLess, Program.level?]

end

/-- What is entered next is the first of the programs. -/
theorem Grows.exists_next {tree : Tree α} {deep : Nat} {unseen : List Handle}
    {ids : List NodeId} {handle : Handle} {ancestors : List Handle}
    {rest : List (Handle × List Handle)} {programs : List (Located α)}
    (grows : tree.Grows deep unseen ids ((handle, ancestors) :: rest)
      programs) :
    ∃ program others, programs = program :: others ∧
      program.handle = handle ∧ tree.Holds program ∧ handle ∈ unseen ∧
      program.identity ∉ ids ∧
      tree.defectOf? deep program.node ancestors = none := by
  obtain ⟨matched, -, handlesUnseen, -, identitiesNew⟩ := grows
  obtain ⟨program, others, ⟨rfl, holds, clean⟩, -, rfl⟩ :=
    List.forall₂_cons_left_iff.mp matched
  rw [List.flatMap_cons] at handlesUnseen identitiesNew
  rw [Program.handles_eq] at handlesUnseen
  rw [Program.identities_eq] at identitiesNew
  exact ⟨program, others, rfl, rfl, holds,
    handlesUnseen _ (by simp), identitiesNew _ (by simp),
    clean [] program .root⟩

/-- A check of programs that are stored apart from each other and have no defect
within some limit finds the first node that is too deep. -/
theorem check_eq {tree : Tree α} {deep limit : Nat} {unseen path : List Handle}
    {ids : List NodeId} {steps : List Step} {programs : List (Located α)}
    (unseenNodup : unseen.Nodup) (pathSeen : ∀ handle ∈ path, handle ∉ unseen)
    (grows : tree.Grows deep unseen ids (steps.filterMap Step.entered?)
      programs) :
    tree.check limit unseen path ids steps =
      depthVerdict limit
        (firstTooDeep? limit (steps.filterMap Step.entered?) programs) := by
  fun_induction check tree limit unseen path ids steps generalizing programs with
  | case1 unseen path ids => rfl
  | case2 unseen path ids handle rest ih =>
      exact ih unseenNodup
        (fun other otherIn => pathSeen other (List.mem_of_mem_erase otherIn)) grows
  | case3 unseen path ids handle ancestors rest missing =>
      obtain ⟨program, others, rfl, rfl, holds, -⟩ := grows.exists_next
      rw [holds.root] at missing
      cases missing
  | case4 unseen path ids handle ancestors rest node stored onPath =>
      obtain ⟨program, others, rfl, rfl, -, isUnseen, -⟩ := grows.exists_next
      exact absurd isUnseen (pathSeen _ onPath)
  | case5 unseen path ids handle ancestors rest node stored _ _ isKnown =>
      obtain ⟨program, others, rfl, rfl, holds, -, isNew, -⟩ := grows.exists_next
      obtain rfl := Option.some.inj (holds.root.symm.trans stored)
      exact absurd isKnown isNew
  | case6 unseen path ids handle ancestors rest node stored _ _ _ defect found =>
      obtain ⟨program, others, rfl, rfl, holds, -, -, sound⟩ := grows.exists_next
      obtain rfl := Option.some.inj (holds.root.symm.trans stored)
      rw [defectOf?_eq sound] at found
      split at found
      · rename_i tooDeep
        obtain rfl := Option.some.inj found
        exact (congrArg (depthVerdict limit) (firstTooDeep?_root tooDeep)).symm
      · cases found
  | case7 unseen path ids handle ancestors rest node stored _ _ _ _ defect found =>
      obtain ⟨program, others, rfl, rfl, holds, -⟩ := grows.exists_next
      obtain rfl := Option.some.inj (holds.root.symm.trans stored)
      rw [holds.slotsDefect?_eq_none] at found
      cases found
  | case8 unseen path ids handle ancestors rest node stored _ _ _ noDefect _ below =>
      rename_i ih
      obtain ⟨program, others, rfl, rfl, holds, -, -, sound⟩ := grows.exists_next
      obtain rfl := Option.some.inj (holds.root.symm.trans stored)
      have shallow : ¬ limit < ancestors.length := by
        intro tooDeep
        rw [defectOf?_eq sound, if_pos tooDeep] at noDefect
        cases noDefect
      have entered : (below ++ Step.leave program.handle :: rest).filterMap
            Step.entered? =
          (program.construct.children.map fun child =>
            (child.2, program.handle :: ancestors)) ++
              rest.filterMap Step.entered? :=
        Step.entered_below ..
      rw [ih (unseenNodup.erase _) ?_ (entered ▸ grows.descend), entered]
      · exact congrArg (depthVerdict limit) (firstTooDeep?_descend shallow).symm
      · intro other otherIn again
        have stillUnseen := unseenNodup.mem_erase_iff.mp again
        rcases List.mem_cons.mp otherIn with rfl | isEarlier
        · exact stillUnseen.1 rfl
        · exact pathSeen other isEarlier stillUnseen.2
  | case9 unseen path ids handle ancestors rest node stored _ isSeen =>
      obtain ⟨program, others, rfl, rfl, -, isUnseen, -⟩ := grows.exists_next
      exact absurd isUnseen isSeen

/-- Validation of a tree that is well formed with some limit. -/
theorem Stores.validate_eq {tree : Tree α} {deep : Nat} {program : Located α}
    (stores : tree.Stores deep program) (limit : Nat) :
    tree.validate limit = depthVerdict limit (program.level? (limit + 1)) := by
  have grows : tree.Grows deep (List.range tree.size) []
      [(program.handle, [])] [program] := by
    refine ⟨.cons ⟨rfl, stores.holds, stores.clean⟩ .nil, ?_, ?_, ?_, ?_⟩
    · simpa using stores.handlesNodup
    · intro handle handleIn
      rw [List.flatMap_singleton] at handleIn
      exact List.mem_range.mpr (stores.holds.lt_size handleIn)
    · simpa using stores.identitiesNodup
    · simp
  have checked : tree.check limit (List.range tree.size) [] []
      [.enter program.handle []] = _ :=
    check_eq List.nodup_range (List.forall_mem_nil _) grows
  have first : firstTooDeep? limit [(program.handle, [])] [program] =
      program.level? (limit + 1) := by
    rw [firstTooDeep?_cons]
    exact Option.or_none
  unfold validate
  rw [stores.root]
  simp only [stores.holds.root]
  exact checked.trans (congrArg (depthVerdict limit) first)

end Tree

end Flowchart
