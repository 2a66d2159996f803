import Flowchart.Layout.Engine
import Flowchart.Proofs.Results
import Flowchart.Proofs.Tree.WellFormed

/-!
# Reading a stored program

Both ways of going through a well formed tree meet the program it stores: it is
read back from its root as it was written, and the walk visits its nodes with
parents before their children.
-/

namespace Flowchart

namespace Tree

variable {α : Type}

/-! ## From the root down -/

/-- A node is read once all that is below it is. -/
theorem unfold_succ {tree : Tree α} {program : Located α} {fuel : Nat}
    (stored : tree.node? program.handle = some program.node)
    (below : ∀ child ∈ program.children,
      tree.unfold fuel child.handle = .ok child.written) :
    tree.unfold (fuel + 1) program.handle = .ok program.written := by
  rw [unfold, stored]
  cases program with
  | statement label kind | result label | typeDefinition label => rfl
  | block label members =>
      have read : (members.map Program.handle).mapM (tree.unfold fuel) =
          .ok (members.map Program.written) := by
        rw [List.mapM_map]
        exact mapM_eq_ok _ below
      simp only [Program.node, Program.construct, read, Program.written,
        Program.map, Program.mapMembers_eq]
      rfl
  | decision label consequent alternative =>
      cases alternative with
      | none =>
          simp only [Program.node, Program.construct, Option.map_none,
            below consequent (by simp [Program.children])]
          rfl
      | some alternative =>
          simp only [Program.node, Program.construct, Option.map_some,
            below consequent (by simp [Program.children]),
            below alternative (by simp [Program.children])]
          rfl
  | selection label arms =>
      simp only [Program.node, Program.construct, List.mapM_map]
      rw [mapM_eq_ok fun arm : String × Located α => (arm.1, arm.2.written)]
      · simp only [Program.written, Program.map, Program.mapArms_eq]
        rfl
      · intro arm armIn
        have armBelow := below arm.2 (List.mem_map.mpr ⟨arm, armIn, rfl⟩)
        simp only [Function.comp_apply, armBelow]
        rfl
  | loop label kind body =>
      simp only [Program.node, Program.construct,
        below body (by simp [Program.children])]
      rfl
  | container label kind body =>
      simp only [Program.node, Program.construct,
        below body (by simp [Program.children])]
      rfl

/-- What is written at a node and below it is read back, given fuel for every
level. -/
theorem Holds.unfold_eq {tree : Tree α} {program : Located α}
    (holds : tree.Holds program) {fuel : Nat}
    (shallow : ∀ above node, program.Stands above node →
      above.length < fuel) :
    tree.unfold fuel program.handle = .ok program.written := by
  induction program using Program.childrenInduction generalizing fuel with
  | step program ih =>
    obtain ⟨fuel, rfl⟩ :=
      Nat.exists_eq_add_one_of_ne_zero (shallow [] _ .root).ne'
    refine unfold_succ holds.root fun child childIn => ?_
    refine ih child childIn (holds.child childIn) fun above node stands => ?_
    simpa using shallow _ node (stands.inside childIn)

variable [Scalar α] {tree : Tree α} {limit : Nat}

theorem Stores.length_above_le {program : Located α}
    (stores : tree.Stores limit program) {above : List (Located α)}
    {node : Located α} (stands : program.Stands above node) :
    above.length ≤ limit := by
  have sound := stores.clean above node stands
  by_contra deep
  unfold defectOf? at sound
  split at sound
  · cases sound
  · simp [Nat.lt_of_not_le deep] at sound

/-- A tree that passes validation is read as the program that it stores. -/
theorem program_eq (accepted : tree.validate limit = .ok ())
    {program : Located α} (stores : tree.Stores limit program) :
    tree.program limit = .ok program.written := by
  have read : tree.unfold (limit + 1) program.handle = .ok program.written :=
    stores.holds.unfold_eq fun above node stands =>
      Nat.lt_succ_of_le (stores.length_above_le stands)
  unfold Tree.program
  rw [accepted, stores.root]
  simp only [read]

/-- A tree is not read where validation reports a defect. -/
theorem program_of_defect {defect : Defect}
    (malformed : tree.validate limit = .error defect) :
    tree.program limit = .error (.structural defect) := by
  unfold Tree.program
  rw [malformed]

/-- Only a tree that passes validation is read at all. -/
theorem validate_of_program {program : Program (Label α)}
    (read : tree.program limit = .ok program) :
    tree.validate limit = .ok () := by
  unfold Tree.program at read
  split at read
  · cases read
  · cases read
  · assumption

/-! ## Along the walk -/

omit [Scalar α] in
/-- Programs that are stored apart from each other are visited whole, one after
the other. -/
theorem visit_eq {unseen : List Handle} {pending : List (Handle × Nat)}
    {programs : List (Located α)}
    (atPending : pending.map Prod.fst = programs.map Program.handle)
    (holds : ∀ program ∈ programs, tree.Holds program)
    (apart : (programs.flatMap Program.handles).Nodup)
    (isUnseen : ∀ handle ∈ programs.flatMap Program.handles,
      handle ∈ unseen) :
    (tree.visit unseen pending).map Prod.fst =
      programs.flatMap Program.handles := by
  fun_induction visit tree unseen pending generalizing programs with
  | case1 unseen =>
      obtain rfl : programs = [] := by simpa using atPending.symm
      rfl
  | case2 unseen handle depth rest _ below =>
      rename_i ih
      cases programs with
      | nil => simp at atPending
      | cons program others =>
          obtain ⟨rfl, restPending⟩ : handle = program.handle ∧
              rest.map Prod.fst = others.map Program.handle := by
            simpa using atPending
          have programHolds := holds program List.mem_cons_self
          rw [List.flatMap_cons, Program.handles_eq, List.cons_append,
            ← List.flatMap_append] at apart isUnseen ⊢
          rw [List.map_cons, @ih (program.children ++ others)]
          · simp [below, restPending, ← programHolds.childHandles_eq,
              Function.comp_def]
          · intro other otherIn
            rcases List.mem_append.mp otherIn with isChild | isOther
            · exact programHolds.child isChild
            · exact holds other (List.mem_cons_of_mem _ isOther)
          · exact (List.nodup_cons.mp apart).2
          · intro other otherIn
            have different : other ≠ program.handle := by
              rintro rfl
              exact (List.nodup_cons.mp apart).1 otherIn
            exact (List.mem_erase_of_ne different).mpr
              (isUnseen other (List.mem_cons_of_mem _ otherIn))
  | case3 unseen handle depth rest seen ih =>
      cases programs with
      | nil => simp at atPending
      | cons program others =>
          obtain ⟨rfl, -⟩ : handle = program.handle ∧
              rest.map Prod.fst = others.map Program.handle := by
            simpa using atPending
          refine absurd (isUnseen _ ?_) seen
          rw [List.flatMap_cons, Program.handles_eq]
          exact List.mem_cons_self

omit [Scalar α] in
/-- The walk visits a program that lies below the root, and nothing else. -/
theorem Holds.walk_eq {program : Located α} (holds : tree.Holds program)
    (isRoot : tree.root = some program.handle)
    (distinct : program.handles.Nodup) :
    tree.walk.map Prod.fst = program.handles := by
  have visited : (∀ handle ∈ [program].flatMap Program.handles,
        handle ∈ List.range tree.size) →
      (tree.visit (List.range tree.size) [(program.handle, 0)]).map Prod.fst =
        [program].flatMap Program.handles :=
    visit_eq rfl (by simpa using holds) (by simpa using distinct)
  rw [walk, isRoot]
  refine (visited ?_).trans (List.flatMap_singleton _ _)
  intro handle handleIn
  rw [List.flatMap_singleton] at handleIn
  exact List.mem_range.mpr (holds.lt_size handleIn)

omit [Scalar α] in
theorem Bears.walk_eq {program : Located α} (bears : tree.Bears program) :
    tree.walk.map Prod.fst = program.handles :=
  bears.holds.walk_eq bears.root bears.handlesNodup

end Tree

end Flowchart
