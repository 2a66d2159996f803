import Flowchart.Outline.Naming
import Flowchart.Proofs.Program.Structure
import Flowchart.Proofs.Results
import Flowchart.Proofs.Tree.Located

/-!
# How items are named

Whatever the construct, an item is named first and then what lies below it, one
child after the other, each after its place.  The names given on the way are the
ones written, in the order of the text, and none is given twice.
-/

namespace Flowchart

/-- What a place adds to the identity of the parent. -/
def SlotName.step : SlotName → String
  | .member index => toString index
  | name => name.text

namespace Outline

/-! ## Steps of naming -/

namespace Naming

variable {β γ : Type} {step : Naming β} {next : β → Naming γ}
  {before after : List String}

theorem bind_run_eq_ok {result : γ} :
    (step >>= next).run before = .ok (result, after) ↔
      ∃ value between, step.run before = .ok (value, between) ∧
        (next value).run between = .ok (result, after) := by
  rw [StateT.run_bind, Flowchart.bind_eq_ok]
  exact Prod.exists

theorem pure_run_eq_ok {value result : β} :
    (pure value : Naming β).run before = .ok (result, after) ↔
      value = result ∧ before = after := by
  rw [StateT.run_pure]
  change Except.ok (value, before) = Except.ok (result, after) ↔ _
  simp

end Naming

open Naming

theorem identify_name_eq_ok {name : Name} {derived id : NodeId}
    {before after : List String} :
    (identify (some name) derived).run before = .ok (id, after) ↔
      name.text ∉ before ∧ name.text = id ∧ name.text :: before = after := by
  by_cases given : name.text ∈ before
  · simp [identify, given, bind, StateT.run, StateT.bind, get, getThe,
      MonadStateOf.get, StateT.get, pure, Except.pure, Except.bind, throw,
      throwThe, MonadExceptOf.throw, StateT.lift]
  · simp [identify, given, bind, StateT.run, StateT.bind, get, getThe,
      MonadStateOf.get, StateT.get, pure, Except.pure, Except.bind, modify,
      modifyGet, MonadStateOf.modifyGet, StateT.modifyGet, StateT.pure]

theorem identify_none_eq_ok {derived id : NodeId} {before after : List String} :
    (identify none derived).run before = .ok (id, after) ↔
      derived = id ∧ before = after :=
  pure_run_eq_ok

theorem of_labelled {written : Written} {derived : NodeId}
    {label : Label Float32} {before after : List String}
    (run : (labelled written derived).run before = .ok (label, after)) :
    (identify written.name derived).run before = .ok (label.id, after) ∧
      label.text = written.text ∧ label.hint = written.hint := by
  simp only [labelled, bind_run_eq_ok, pure_run_eq_ok] at run
  obtain ⟨id, between, identified, rfl, rfl⟩ := run
  exact ⟨identified, rfl, rfl⟩

/-! ## What lies below a node -/

/-- What is stored of a program named for a place: an arm loses its size. -/
def storedAt : SlotName → Program (Label Float32) → Program (Label Float32)
  | .arm _, program => namedArms.withoutHint program
  | _, program => program

/-- Items at their places are named one after the other. -/
inductive NamesBelow (parent : NodeId) : List (SlotName × Item) →
    List (Program (Label Float32)) → List String → List String → Prop where
  | nil (given : List String) : NamesBelow parent [] [] given given
  | cons (place : SlotName) {item : Item} {rest : List (SlotName × Item)}
      {program : Program (Label Float32)}
      {programs : List (Program (Label Float32))}
      {before between after : List String} :
      (named (parent.child place.step) item).run before = .ok (program, between) →
      NamesBelow parent rest programs between after →
        NamesBelow parent ((place, item) :: rest)
          (storedAt place program :: programs) before after

/-- What naming an item does: the node gets its label, and then the items below
it get theirs. -/
structure Names (derived : NodeId) (item : Item)
    (program : Program (Label Float32)) (before after : List String) : Prop where
  text : program.label.text = item.label.text
  hint : program.label.hint = item.label.hint
  tag : program.tag = item.tag
  places : program.places = item.places
  below : ∃ between,
    (identify item.label.name derived).run before =
      .ok (program.label.id, between) ∧
    NamesBelow program.label.id (item.places.zip item.children)
      program.children between after

theorem of_namedMembers {parent : NodeId} {members : List Item} {index : Nat}
    {programs : List (Program (Label Float32))} {before after : List String}
    (run : (namedMembers parent index members).run before =
      .ok (programs, after)) :
    NamesBelow parent
      (((List.range' index members.length).map SlotName.member).zip members)
      programs before after := by
  induction members generalizing index programs before with
  | nil =>
      obtain ⟨rfl, rfl⟩ := pure_run_eq_ok.mp run
      exact .nil before
  | cons member rest ih =>
      simp only [namedMembers, bind_run_eq_ok, pure_run_eq_ok] at run
      obtain ⟨program, between, first, others, _, later, rfl, rfl⟩ := run
      exact .cons (.member index) first (ih later)

theorem of_namedArms {parent : NodeId} {arms : List (String × Item)} {index : Nat}
    {programs : List (String × Program (Label Float32))}
    {before after : List String}
    (run : (namedArms parent index arms).run before = .ok (programs, after)) :
    programs.length = arms.length ∧
      NamesBelow parent
        (((List.range' index arms.length).map SlotName.arm).zip
          (arms.map Prod.snd))
        (programs.map Prod.snd) before after := by
  induction arms generalizing index programs before with
  | nil =>
      obtain ⟨rfl, rfl⟩ := pure_run_eq_ok.mp run
      exact ⟨rfl, .nil before⟩
  | cons arm rest ih =>
      obtain ⟨pattern, body⟩ := arm
      simp only [namedArms, bind_run_eq_ok, pure_run_eq_ok] at run
      obtain ⟨program, between, first, others, _, later, rfl, rfl⟩ := run
      obtain ⟨counted, below⟩ := ih later
      refine ⟨by rw [List.length_cons, counted, List.length_cons], ?_⟩
      exact .cons (.arm index) first below

theorem NamesBelow.length_eq {parent : NodeId} {places : List (SlotName × Item)}
    {programs : List (Program (Label Float32))} {before after : List String}
    (below : NamesBelow parent places programs before after) :
    programs.length = places.length := by
  induction below with
  | nil => rfl
  | cons _ _ _ ih => rw [List.length_cons, List.length_cons, ih]

/-- One child named at its place. -/
theorem NamesBelow.single {parent : NodeId} (place : SlotName) {item : Item}
    {program : Program (Label Float32)} {before after : List String}
    (run : (named (parent.child place.step) item).run before =
      .ok (program, after)) :
    NamesBelow parent [(place, item)] [storedAt place program] before after :=
  .cons place run (.nil after)

theorem names_of_named {derived : NodeId} {item : Item}
    {program : Program (Label Float32)} {before after : List String}
    (run : (named derived item).run before = .ok (program, after)) :
    Names derived item program before after := by
  cases item with
  | statement | result | typeDefinition =>
      simp only [named, bind_run_eq_ok, pure_run_eq_ok] at run
      obtain ⟨label, between, labelledAs, rfl, rfl⟩ := run
      obtain ⟨identified, text, hint⟩ := of_labelled labelledAs
      exact ⟨text, hint, rfl, rfl, between, identified, .nil between⟩
  | block written members =>
      simp only [named, bind_run_eq_ok, pure_run_eq_ok] at run
      obtain ⟨label, between, labelledAs, programs, _, membersNamed, rfl, rfl⟩ :=
        run
      obtain ⟨identified, text, hint⟩ := of_labelled labelledAs
      have below := of_namedMembers membersNamed
      have counted := below.length_eq
      rw [List.length_zip, List.length_map, List.length_range', min_self]
        at counted
      refine ⟨text, hint, rfl, ?_, between, identified, ?_⟩
      · rw [Program.places, Program.places, counted]
      · rw [Program.places, List.range_eq_range']
        exact below
  | decision written consequent alternative =>
      cases alternative with
      | none =>
          simp only [named, bind_run_eq_ok, pure_run_eq_ok] at run
          obtain ⟨label, between, labelledAs, body, _, bodyNamed, rfl, rfl⟩ := run
          obtain ⟨identified, text, hint⟩ := of_labelled labelledAs
          exact ⟨text, hint, rfl, rfl, between, identified,
            .single .consequent bodyNamed⟩
      | some alternative =>
          simp only [named, bind_run_eq_ok, pure_run_eq_ok] at run
          obtain ⟨label, between, labelledAs, first, _, firstNamed, second, _,
            secondNamed, rfl, rfl⟩ := run
          obtain ⟨identified, text, hint⟩ := of_labelled labelledAs
          exact ⟨text, hint, rfl, rfl, between, identified,
            .cons .consequent firstNamed
              (.single .alternative secondNamed)⟩
  | selection written arms =>
      simp only [named, bind_run_eq_ok, pure_run_eq_ok] at run
      obtain ⟨label, between, labelledAs, programs, _, armsNamed, rfl, rfl⟩ := run
      obtain ⟨identified, text, hint⟩ := of_labelled labelledAs
      obtain ⟨counted, below⟩ := of_namedArms armsNamed
      refine ⟨text, hint, rfl, ?_, between, identified, ?_⟩
      · rw [Program.places, Program.places, counted]
      · rw [Program.places, List.range_eq_range']
        exact below
  | loop written kind body | container written kind body =>
      simp only [named, bind_run_eq_ok, pure_run_eq_ok] at run
      obtain ⟨label, between, labelledAs, program, _, bodyNamed, rfl, rfl⟩ := run
      obtain ⟨identified, text, hint⟩ := of_labelled labelledAs
      exact ⟨text, hint, rfl, rfl, between, identified,
        .single .body bodyNamed⟩

/-! ## What is stored of an arm -/

section Stored

variable (place : SlotName) (program : Program (Label Float32))

@[simp]
theorem id_storedAt : (storedAt place program).label.id = program.label.id := by
  cases place <;> cases program <;> rfl

@[simp]
theorem children_storedAt :
    (storedAt place program).children = program.children := by
  cases place <;> cases program <;> rfl

@[simp]
theorem tag_storedAt : (storedAt place program).tag = program.tag := by
  cases place <;> cases program <;> rfl

@[simp]
theorem text_storedAt :
    (storedAt place program).label.text = program.label.text := by
  cases place <;> cases program <;> rfl

/-- Only the block of an arm loses its size. -/
theorem hint_storedAt : (storedAt place program).label.hint = none ∨
    (storedAt place program).label.hint = program.label.hint := by
  cases place with
  | arm index =>
      cases program with
      | block label members => exact .inl rfl
      | _ => exact .inr rfl
  | _ => exact .inr rfl

@[simp]
theorem places_storedAt : (storedAt place program).places = program.places := by
  cases place <;> cases program <;> rfl

end Stored

/-! ## The names written -/

/-- The names written at an item and below it, in the order of the text. -/
def writtenNames (item : Item) : List String :=
  item.labels.filterMap fun written => written.name.map Name.text

theorem writtenNames_eq (item : Item) :
    writtenNames item = (item.label.name.map Name.text).toList ++
      item.children.flatMap writtenNames := by
  have below : (item.children.flatMap Program.labels).filterMap
      (fun written => written.name.map Name.text) =
        item.children.flatMap writtenNames :=
    List.filterMap_flatMap
  rw [writtenNames, Program.labels_eq, List.filterMap_cons, below]
  cases item.label.name <;> rfl

theorem map_snd_zip_children {L : Type} (program : Program L) :
    (program.places.zip program.children).map Prod.snd = program.children :=
  List.map_snd_zip program.length_places.ge

theorem flatMap_zip_children {L β : Type} (program : Program L)
    (each : Program L → List β) :
    (program.places.zip program.children).flatMap (fun entry => each entry.2) =
      program.children.flatMap each := by
  rw [← List.flatMap_map, map_snd_zip_children]

theorem mem_children_of_zip {L : Type} {program : Program L}
    {entry : SlotName × Program L}
    (entryIn : entry ∈ program.places.zip program.children) :
    entry.2 ∈ program.children :=
  map_snd_zip_children program ▸ List.mem_map_of_mem entryIn

/-- The names given while an item is named are those written in it, and each is
new. -/
theorem Names.given_eq {derived : NodeId} {item : Item}
    {program : Program (Label Float32)} {before after : List String}
    (names : Names derived item program before after) :
    after = (writtenNames item).reverse ++ before ∧
      (before.Nodup → after.Nodup) := by
  induction item using Program.childrenInduction generalizing derived program
    before after with
  | step item ih =>
    obtain ⟨between, identified, below⟩ := names.below
    have own : between = (item.label.name.map Name.text).toList.reverse ++ before ∧
        (before.Nodup → between.Nodup) := by
      cases isName : item.label.name with
      | none =>
          rw [isName] at identified
          obtain ⟨-, rfl⟩ := identify_none_eq_ok.mp identified
          exact ⟨rfl, id⟩
      | some name =>
          rw [isName] at identified
          obtain ⟨isNew, -, rfl⟩ := identify_name_eq_ok.mp identified
          exact ⟨rfl, fun distinct => List.nodup_cons.mpr ⟨isNew, distinct⟩⟩
    have children : ∀ {places programs before after},
        NamesBelow program.label.id places programs before after →
        (∀ entry ∈ places, entry.2 ∈ item.children) →
        after = (places.flatMap fun entry => writtenNames entry.2).reverse ++
            before ∧ (before.Nodup → after.Nodup) := by
      intro places programs before after below
      induction below with
      | nil given => exact fun _ => ⟨rfl, id⟩
      | @cons place child rest program programs before between after run _ later =>
          intro inChildren
          obtain ⟨rfl, distinct⟩ := ih child (inChildren _ List.mem_cons_self)
            (names_of_named run)
          obtain ⟨rfl, laterDistinct⟩ := later fun entry entryIn =>
            inChildren entry (List.mem_cons_of_mem _ entryIn)
          refine ⟨?_, laterDistinct ∘ distinct⟩
          rw [List.flatMap_cons, List.reverse_append, List.append_assoc]
    obtain ⟨rfl, distinct⟩ := own
    obtain ⟨rfl, laterDistinct⟩ :=
      children below fun entry entryIn => mem_children_of_zip entryIn
    refine ⟨?_, laterDistinct ∘ distinct⟩
    rw [flatMap_zip_children, writtenNames_eq, List.reverse_append,
      List.append_assoc]

end Outline

end Flowchart
