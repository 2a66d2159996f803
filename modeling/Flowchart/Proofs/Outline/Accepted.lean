import Flowchart.Proofs.Outline.Identities
import Flowchart.Proofs.Tree.Whole

/-!
# Trees of accepted texts

The tree of an accepted text is whole, and the limit on the nesting of bodies
bounds its depth.  Validation with a limit that admits this depth can complain
only of what is written at single nodes.
-/

namespace Flowchart.Outline

theorem isShallow_storedAt {place : SlotName} {program : Program (Label Float32)}
    {depth : Nat} :
    (storedAt place program).IsShallow depth ↔ program.IsShallow depth := by
  cases depth <;> rw [Program.IsShallow, Program.IsShallow, children_storedAt]

theorem NamesBelow.exists_item {parent : NodeId} {places : List (SlotName × Item)}
    {programs : List (Program (Label Float32))} {before after : List String}
    (below : NamesBelow parent places programs before after)
    {stored : Program (Label Float32)} (storedIn : stored ∈ programs) :
    ∃ entry ∈ places, ∃ program before after,
      Names (parent.child entry.1.step) entry.2 program before after ∧
        stored = storedAt entry.1 program := by
  induction below with
  | nil => cases storedIn
  | @cons place item rest program programs before between after run _ ih =>
      rcases List.mem_cons.mp storedIn with rfl | inRest
      · exact ⟨(place, item), List.mem_cons_self, program, before, between,
          names_of_named run, rfl⟩
      · obtain ⟨entry, entryIn, found⟩ := ih inRest
        exact ⟨entry, List.mem_cons_of_mem _ entryIn, found⟩

/-- Names do not change how deep nodes stand. -/
theorem Names.isShallow {derived : NodeId} {item : Item}
    {program : Program (Label Float32)} {before after : List String}
    (names : Names derived item program before after) {depth : Nat}
    (shallow : item.IsShallow depth) : program.IsShallow depth := by
  induction depth generalizing derived item program before after with
  | zero =>
      obtain ⟨between, -, below⟩ := names.below
      have counted := below.length_eq
      rw [shallow, List.zip_nil_right] at counted
      exact List.length_eq_zero_iff.mp counted
  | succ depth ih =>
      intro child childIn
      obtain ⟨between, -, below⟩ := names.below
      obtain ⟨entry, entryIn, inner, _, _, innerNames, rfl⟩ :=
        below.exists_item childIn
      exact isShallow_storedAt.mpr
        (ih innerNames (shallow entry.2 (mem_children_of_zip entryIn)))

/-- The tree of an accepted text is whole and at most twice as deep as bodies
may nest, the block around the text apart.  Where the limit admits that depth,
validation fails only for a repeated identity, a size, a selection without arms
or a declaration out of place, and the first only if the name of the whole
outline is written for an item. -/
theorem parse_whole {source : String} {tree : Tree Float32}
    (accepted : parse source = .ok tree) :
    tree.IsWhole (2 * nestingLimit + 1) ∧
    ∃ members, readItems source = .ok members ∧
      ∀ limit defect, 2 * nestingLimit + 1 ≤ limit →
        tree.validate limit = .error defect → defect.IsOfContent ∧
          (rootId ∉ writtenNames (blockOf members) →
            ∀ id, defect ≠ .duplicateId id) := by
  obtain ⟨members, program, given, read, run, rfl⟩ := of_parse accepted
  obtain ⟨located, rfl, contains⟩ := Tree.exists_ofProgram program
  have shallow : located.IsShallow (2 * nestingLimit + 1) :=
    Program.isShallow_map.mp
      ((names_of_named run).isShallow (isShallow_of_readItems read))
  have whole := contains.isWhole shallow
  refine ⟨whole, members, read, fun limit defect le refused => ?_⟩
  obtain ⟨root, node, isRoot, isNode⟩ := whole.rooted
  have has := Tree.hasDefect_of_validate isRoot isNode refused
  refine ⟨whole.isOfContent le has, ?_⟩
  rintro notWritten id rfl
  have distinct := (ids_ofProgram located.written).nodup_iff.mpr
    ((ids_nodup_iff read run).mpr notWritten)
  obtain ⟨handle, other, node, otherNode, different, ⟨-, isNode⟩, ⟨-, isOther⟩,
    isId, otherIsId⟩ := has
  exact different (Tree.handle_eq_of_id distinct isNode isOther
    (isId.trans otherIsId.symm))

/-- A selection without arms, which is accepted. -/
def bareSelection : Tree Float32 :=
  ⟨#[⟨⟨"module/0", "m", none⟩, .selection []⟩,
    ⟨⟨"module", "", none⟩, .block [0]⟩], some 1⟩

theorem parse_whole_bareSelection :
    parse "match \"m\" \x7b \x7d" = .ok bareSelection ∧
      bareSelection.IsWhole (2 * nestingLimit + 1) ∧
      bareSelection.validate 129 = .error (.emptySelection "module/0") ∧
      (Defect.emptySelection "module/0").IsOfContent := by
  have parsed : (parse "match \"m\" \x7b \x7d").toOption.map id =
      some bareSelection := by
    decide +kernel
  obtain ⟨tree, accepted, rfl⟩ := exists_of_toOption parsed
  have refused : bareSelection.validate 129 =
      .error (.emptySelection "module/0") := by
    cbv
  obtain ⟨whole, members, -, ofContent⟩ := parse_whole accepted
  exact ⟨accepted, whole, refused, (ofContent 129 _ le_rfl refused).1⟩

end Flowchart.Outline
