import Flowchart.Proofs.Layout.Drawn
import Flowchart.Proofs.Outline.Naming
import Flowchart.Proofs.Outline.Shape
import Flowchart.Proofs.Program.Storing

/-!
# Identities of the nodes of an outline

An identity that is not written is a way: it starts with a name, or with that of
the whole outline, and each place on the way down adds a step.  Names and steps
have no slash, so that the way can be read from the identity, and no two nodes
share a way unless a name is that of the whole outline.
-/

namespace Flowchart

/-! ## Ways -/

namespace NodeId

/-- The name that an identity starts with and the steps after it. -/
def way (id : NodeId) : List (List Char) := id.toList.splitOn '/'

theorem way_of_plain {id : NodeId} (plain : '/' ∉ id.toList) :
    id.way = [id.toList] := by
  rw [way, List.splitOn]
  refine List.splitOnP_eq_singleton fun c isIn => ?_
  simp only [beq_eq_false_iff_ne]
  rintro rfl
  exact plain isIn

/-- A place adds one step. -/
theorem way_child (parent : NodeId) {place : String} (plain : '/' ∉ place.toList) :
    (parent.child place).way = parent.way ++ [place.toList] := by
  have written : (parent.child place).toList =
      parent.toList ++ '/' :: place.toList := by
    simp [child]
  rw [← way_of_plain plain, way, written, List.splitOn,
    List.splitOnP_append_cons _ _ (by simp)]
  rfl

theorem way_ne_nil (id : NodeId) : id.way ≠ [] :=
  List.splitOnP_ne_nil _ _

end NodeId

/-! ## Steps -/

theorem plain_toString (index : Nat) : '/' ∉ (toString index).toList := by
  intro isIn
  have isDigit : '/'.isDigit = true := by
    refine Nat.isDigit_of_mem_toDigits (by omega) le_rfl ?_ (n := index)
    simpa [Nat.repr_eq_ofList_toDigits] using isIn
  cases isDigit

theorem SlotName.plain_step (place : SlotName) : '/' ∉ place.step.toList := by
  cases place with
  | member index => exact plain_toString index
  | arm index =>
      have plain := plain_toString index
      simpa [step, text] using plain
  | _ => decide

theorem toString_injective : Function.Injective (toString : Nat → String) :=
  fun _ _ same => Nat.repr_injective same

namespace Program

variable {L : Type}

/-- Different places of a node add different steps. -/
theorem steps_nodup (program : Program L) :
    (program.places.map SlotName.step).Nodup := by
  have numbered : ∀ {place : Nat → SlotName} (count : Nat),
      Function.Injective (SlotName.step ∘ place) →
        (((List.range count).map place).map SlotName.step).Nodup := by
    intro place count injective
    rw [List.map_map]
    exact List.nodup_range.map injective
  cases program with
  | block label members => exact numbered _ toString_injective
  | selection label arms =>
      refine numbered _ fun first second same => ?_
      exact toString_injective ((String.append_right_inj _).mp same)
  | decision label consequent alternative =>
      cases alternative with
      | none => simp [places]
      | some alternative => exact (by decide : ["then", "else"].Nodup)
  | _ => simp [places]

end Program

namespace NodeId

/-! ## Ways that part -/

/-- Neither way goes on from the other. -/
def Parts (first second : NodeId) : Prop :=
  ¬ first.way <+: second.way ∧ ¬ second.way <+: first.way

/-- Each of these identities goes on from one of the starts. -/
def StartIn (starts ids : List NodeId) : Prop :=
  ∀ id ∈ ids, ∃ start ∈ starts, start.way <+: id.way

theorem StartIn.append {starts moreStarts ids moreIds : List NodeId}
    (first : StartIn starts ids) (second : StartIn moreStarts moreIds) :
    StartIn (starts ++ moreStarts) (ids ++ moreIds) := by
  intro id idIn
  rcases List.mem_append.mp idIn with isFirst | isSecond
  · obtain ⟨start, startIn, goesOn⟩ := first id isFirst
    exact ⟨start, List.mem_append_left _ startIn, goesOn⟩
  · obtain ⟨start, startIn, goesOn⟩ := second id isSecond
    exact ⟨start, List.mem_append_right _ startIn, goesOn⟩

/-- What goes on from starts that part is different. -/
theorem StartIn.disjoint {starts moreStarts ids moreIds : List NodeId}
    (first : StartIn starts ids) (second : StartIn moreStarts moreIds)
    (part : ∀ start ∈ starts, ∀ other ∈ moreStarts, Parts start other) :
    ids.Disjoint moreIds := by
  intro id isFirst isSecond
  obtain ⟨start, startIn, goesOn⟩ := first id isFirst
  obtain ⟨other, otherIn, otherGoesOn⟩ := second id isSecond
  obtain ⟨notFrom, notTo⟩ := part start startIn other otherIn
  rcases List.prefix_or_prefix_of_prefix goesOn otherGoesOn with before | before
  · exact notFrom before
  · exact notTo before

theorem prefix_way_child {name parent : NodeId} {place : String}
    (plainName : '/' ∉ name.toList) (plainPlace : '/' ∉ place.toList) :
    name.way <+: (parent.child place).way ↔ name.way <+: parent.way := by
  rw [way_child parent plainPlace, way_of_plain plainName]
  obtain ⟨first, rest, isWay⟩ := List.exists_cons_of_ne_nil parent.way_ne_nil
  rw [isWay, List.cons_append, List.cons_prefix_cons, List.cons_prefix_cons]
  exact and_congr_right fun _ => iff_of_true List.nil_prefix List.nil_prefix

theorem way_prefix_iff {first second : NodeId} (plain : '/' ∉ first.toList)
    (plainToo : '/' ∉ second.toList) :
    first.way <+: second.way ↔ first = second := by
  rw [way_of_plain plain, way_of_plain plainToo, List.cons_prefix_cons,
    and_iff_left List.nil_prefix]
  exact String.toList_inj

theorem length_way_child (parent : NodeId) {place : String}
    (plain : '/' ∉ place.toList) :
    (parent.child place).way.length = parent.way.length + 1 := by
  rw [way_child parent plain, List.length_append, List.length_singleton]

end NodeId

namespace Outline

open NodeId

/-! ## Identities below a node -/

/-- What the identities of items at their places start with. -/
def starts (parent : NodeId) (places : List (SlotName × Item)) : List NodeId :=
  places.flatMap fun entry => parent.child entry.1.step :: writtenNames entry.2

theorem mem_starts {parent start : NodeId} {places : List (SlotName × Item)} :
    start ∈ starts parent places ↔
      (∃ entry ∈ places, start = parent.child entry.1.step) ∨
        start ∈ places.flatMap fun entry => writtenNames entry.2 := by
  simp only [starts, List.mem_flatMap, List.mem_cons]
  constructor
  · rintro ⟨entry, entryIn, isChild | isName⟩
    · exact .inl ⟨entry, entryIn, isChild⟩
    · exact .inr ⟨entry, entryIn, isName⟩
  · rintro (⟨entry, entryIn, isChild⟩ | ⟨entry, entryIn, isName⟩)
    · exact ⟨entry, entryIn, .inl isChild⟩
    · exact ⟨entry, entryIn, .inr isName⟩

@[simp]
theorem ids_storedAt (place : SlotName) (program : Program (Label Float32)) :
    (storedAt place program).ids = program.ids := by
  rw [Program.ids_eq, Program.ids_eq program, id_storedAt, children_storedAt]

theorem Names.id_mem {derived : NodeId} {item : Item}
    {program : Program (Label Float32)} {before after : List String}
    (names : Names derived item program before after) :
    (item.label.name = none ∧ program.label.id = derived) ∨
      ∃ name, item.label.name = some name ∧ program.label.id = name.text := by
  obtain ⟨between, identified, -⟩ := names.below
  cases isName : item.label.name with
  | none =>
      rw [isName] at identified
      exact .inl ⟨rfl, (identify_none_eq_ok.mp identified).1.symm⟩
  | some name =>
      rw [isName] at identified
      exact .inr ⟨name, rfl, (identify_name_eq_ok.mp identified).2.1.symm⟩

theorem NamesBelow.startIn {parent : NodeId} {places : List (SlotName × Item)}
    {programs : List (Program (Label Float32))} {before after : List String}
    (below : NamesBelow parent places programs before after)
    (each : ∀ entry ∈ places, ∀ {derived program before after},
      Names derived entry.2 program before after →
        StartIn (derived :: writtenNames entry.2) program.ids) :
    StartIn (starts parent places) (programs.flatMap Program.ids) := by
  induction below with
  | nil => simp [StartIn]
  | @cons place item rest program programs before between after run later ih =>
      have first := each (place, item) List.mem_cons_self (names_of_named run)
      have others := ih fun entry entryIn =>
        each entry (List.mem_cons_of_mem _ entryIn)
      rw [List.flatMap_cons, ids_storedAt]
      exact first.append others

/-- Every identity goes on from the one that was at hand or from a name. -/
theorem Names.startIn {derived : NodeId} {item : Item}
    {program : Program (Label Float32)} {before after : List String}
    (names : Names derived item program before after) :
    StartIn (derived :: writtenNames item) program.ids := by
  induction item using Program.childrenInduction generalizing derived program
    before after with
  | step item ih =>
    have own : program.label.id ∈ derived :: writtenNames item := by
      rcases names.id_mem with ⟨-, isDerived⟩ | ⟨name, isName, isWritten⟩
      · rw [isDerived]
        exact List.mem_cons_self
      · rw [isWritten, writtenNames_eq, isName]
        exact List.mem_cons_of_mem _ List.mem_cons_self
    obtain ⟨between, -, below⟩ := names.below
    have startBelow := below.startIn fun entry entryIn =>
      ih entry.2 (mem_children_of_zip entryIn)
    intro id idIn
    rw [Program.ids_eq] at idIn
    rcases List.mem_cons.mp idIn with rfl | idIn
    · exact ⟨_, own, List.prefix_rfl⟩
    · obtain ⟨start, startIn, goesOn⟩ := startBelow id idIn
      rcases mem_starts.mp startIn with ⟨entry, -, rfl⟩ | isName
      · refine ⟨_, own, List.IsPrefix.trans ?_ goesOn⟩
        rw [way_child _ entry.1.plain_step]
        exact List.prefix_append _ _
      · rw [flatMap_zip_children] at isName
        refine ⟨start, List.mem_cons_of_mem _ ?_, goesOn⟩
        rw [writtenNames_eq]
        exact List.mem_append_right _ isName

/-! ## No identity twice -/

/-- Names without a slash, each written once, none of which an identity starts
with. -/
structure Fresh (names : List String) (id : NodeId) : Prop where
  plain : ∀ name ∈ names, '/' ∉ name.toList
  distinct : names.Nodup
  foreign : ∀ name ∈ names, ¬ NodeId.way name <+: id.way

theorem Fresh.sublist {names fewer : List String} {id : NodeId}
    (fresh : Fresh names id) (sublist : fewer.Sublist names) : Fresh fewer id where
  plain := fun name nameIn => fresh.plain name (sublist.subset nameIn)
  distinct := fresh.distinct.sublist sublist
  foreign := fun name nameIn => fresh.foreign name (sublist.subset nameIn)

theorem Fresh.child {names : List String} {parent : NodeId}
    (fresh : Fresh names parent) (place : SlotName) :
    Fresh names (parent.child place.step) where
  plain := fresh.plain
  distinct := fresh.distinct
  foreign := fun name nameIn => by
    rw [prefix_way_child (fresh.plain name nameIn) place.plain_step]
    exact fresh.foreign name nameIn

/-- The names below a node are fresh for its identity. -/
theorem Names.fresh_below {derived : NodeId} {item : Item}
    {program : Program (Label Float32)} {before after : List String}
    (names : Names derived item program before after)
    (fresh : Fresh (writtenNames item) derived) :
    Fresh (item.children.flatMap writtenNames) program.label.id := by
  rw [writtenNames_eq] at fresh
  have below := fresh.sublist (List.sublist_append_right _ _)
  refine ⟨below.plain, below.distinct, ?_⟩
  rcases names.id_mem with ⟨-, isDerived⟩ | ⟨name, isName, isWritten⟩
  · rw [isDerived]
    exact below.foreign
  · intro other otherIn goesOn
    rw [isName] at fresh
    have namePlain := fresh.plain name.text List.mem_cons_self
    rw [isWritten, way_prefix_iff (below.plain other otherIn) namePlain] at goesOn
    exact (List.nodup_cons.mp fresh.distinct).1 (goesOn ▸ otherIn)

theorem starts_nodup {parent : NodeId} {places : List (SlotName × Item)}
    (steps : (places.map fun entry => entry.1.step).Nodup)
    (fresh : Fresh (places.flatMap fun entry => writtenNames entry.2) parent) :
    (starts parent places).Nodup := by
  have apart : (places.map fun entry => parent.child entry.1.step).Disjoint
      (places.flatMap fun entry => writtenNames entry.2) := by
    intro start isChild isName
    obtain ⟨entry, -, rfl⟩ := List.mem_map.mp isChild
    refine fresh.plain _ isName ?_
    simp [NodeId.child]
  have distinct : (places.map fun entry => parent.child entry.1.step).Nodup := by
    have injective : Function.Injective parent.child := fun first second same =>
      (String.append_right_inj _).mp same
    have mapped := steps.map injective
    rwa [List.map_map] at mapped
  exact (List.map_append_flatMap_perm places _ _).nodup_iff.mp
    (distinct.append fresh.distinct apart)

/-- What different children start with parts. -/
theorem starts_part {parent : NodeId} {places : List (SlotName × Item)}
    (fresh : Fresh (places.flatMap fun entry => writtenNames entry.2) parent)
    {start other : NodeId} (startIn : start ∈ starts parent places)
    (otherIn : other ∈ starts parent places) (different : start ≠ other) :
    ¬ start.way <+: other.way := by
  intro goesOn
  rcases mem_starts.mp startIn with ⟨entry, entryIn, rfl⟩ | isName
  · rcases mem_starts.mp otherIn with ⟨next, nextIn, rfl⟩ | isOther
    · have sameLength := length_way_child parent entry.1.plain_step
      rw [← length_way_child parent next.1.plain_step] at sameLength
      have same := goesOn.eq_of_length sameLength
      rw [way_child parent entry.1.plain_step, way_child parent next.1.plain_step]
        at same
      have sameStep := List.singleton_inj.mp (List.append_cancel_left same)
      rw [String.toList_injective sameStep] at different
      exact different rfl
    · have longer := goesOn.length_le
      rw [length_way_child parent entry.1.plain_step,
        way_of_plain (fresh.plain other isOther), List.length_singleton] at longer
      have positive := List.length_pos_of_ne_nil parent.way_ne_nil
      omega
  · have plain := fresh.plain start isName
    rcases mem_starts.mp otherIn with ⟨next, nextIn, rfl⟩ | isOther
    · rw [prefix_way_child plain next.1.plain_step] at goesOn
      exact fresh.foreign start isName goesOn
    · exact different ((way_prefix_iff plain (fresh.plain other isOther)).mp goesOn)

theorem NamesBelow.ids_nodup {parent : NodeId} {places : List (SlotName × Item)}
    {programs : List (Program (Label Float32))} {before after : List String}
    (below : NamesBelow parent places programs before after)
    (steps : (places.map fun entry => entry.1.step).Nodup)
    (fresh : Fresh (places.flatMap fun entry => writtenNames entry.2) parent)
    (each : ∀ entry ∈ places, ∀ {derived program before after},
      Names derived entry.2 program before after →
        Fresh (writtenNames entry.2) derived → program.ids.Nodup) :
    (programs.flatMap Program.ids).Nodup := by
  induction below with
  | nil => exact List.nodup_nil
  | @cons place item rest program programs before between after run later ih =>
      have named := names_of_named run
      have firstFresh : Fresh (writtenNames item) parent :=
        fresh.sublist (List.sublist_append_left _ _)
      have first := each (place, item) List.mem_cons_self named
        (firstFresh.child place)
      have others := ih (List.nodup_cons.mp steps).2
        (fresh.sublist (List.sublist_append_right _ _))
        fun entry entryIn => each entry (List.mem_cons_of_mem _ entryIn)
      have distinct := starts_nodup steps fresh
      have disjoint := named.startIn.disjoint
        (later.startIn fun entry _ => Names.startIn) fun start startIn other otherIn => by
          have startIn' : start ∈ starts parent ((place, item) :: rest) :=
            List.mem_append_left _ startIn
          have otherIn' : other ∈ starts parent ((place, item) :: rest) :=
            List.mem_append_right _ otherIn
          have different : start ≠ other := by
            rintro rfl
            exact (List.nodup_append'.mp distinct).2.2 startIn otherIn
          exact ⟨starts_part fresh startIn' otherIn' different,
            starts_part fresh otherIn' startIn' different.symm⟩
      rw [List.flatMap_cons, ids_storedAt]
      exact first.append others disjoint

/-- Where all names are fresh, no identity is given twice. -/
theorem Names.ids_nodup {derived : NodeId} {item : Item}
    {program : Program (Label Float32)} {before after : List String}
    (names : Names derived item program before after)
    (fresh : Fresh (writtenNames item) derived) : program.ids.Nodup := by
  induction item using Program.childrenInduction generalizing derived program
    before after with
  | step item ih =>
    obtain ⟨between, -, below⟩ := names.below
    have freshBelow := names.fresh_below fresh
    rw [← flatMap_zip_children] at freshBelow
    have steps : ((item.places.zip item.children).map fun entry =>
        entry.1.step).Nodup := by
      have placesNodup := item.steps_nodup
      rwa [← List.map_fst_zip item.length_places.le, List.map_map] at placesNodup
    have distinct := below.ids_nodup steps freshBelow fun entry entryIn =>
      ih entry.2 (mem_children_of_zip entryIn)
    rw [Program.ids_eq]
    refine List.nodup_cons.mpr ⟨fun again => ?_, distinct⟩
    obtain ⟨start, startIn, goesOn⟩ :=
      below.startIn (fun entry _ => Names.startIn) _ again
    rcases mem_starts.mp startIn with ⟨entry, -, rfl⟩ | isName
    · have longer := goesOn.length_le
      rw [length_way_child _ entry.1.plain_step] at longer
      omega
    · exact freshBelow.foreign start isName goesOn

theorem NamesBelow.mem_ids {parent : NodeId} {places : List (SlotName × Item)}
    {programs : List (Program (Label Float32))} {before after : List String}
    (below : NamesBelow parent places programs before after)
    (each : ∀ entry ∈ places, ∀ {derived program before after},
      Names derived entry.2 program before after →
        ∀ name ∈ writtenNames entry.2, name ∈ program.ids) :
    ∀ name ∈ places.flatMap fun entry => writtenNames entry.2,
      name ∈ programs.flatMap Program.ids := by
  induction below with
  | nil => exact fun name nameIn => nameIn
  | @cons place item rest program programs before between after run _ ih =>
      intro name nameIn
      rw [List.flatMap_cons, ids_storedAt]
      rcases List.mem_append.mp nameIn with isFirst | isLater
      · exact List.mem_append_left _
          (each _ List.mem_cons_self (names_of_named run) name isFirst)
      · exact List.mem_append_right _ (ih
          (fun entry entryIn => each entry (List.mem_cons_of_mem _ entryIn))
          name isLater)

/-- Every name that is written becomes an identity. -/
theorem Names.mem_ids {derived : NodeId} {item : Item}
    {program : Program (Label Float32)} {before after : List String}
    (names : Names derived item program before after) :
    ∀ name ∈ writtenNames item, name ∈ program.ids := by
  induction item using Program.childrenInduction generalizing derived program
    before after with
  | step item ih =>
    obtain ⟨between, -, below⟩ := names.below
    have inChildren := below.mem_ids fun entry entryIn =>
      ih entry.2 (mem_children_of_zip entryIn)
    intro name nameIn
    rw [writtenNames_eq] at nameIn
    rw [Program.ids_eq]
    rcases List.mem_append.mp nameIn with isOwn | isBelow
    · rcases names.id_mem with ⟨isName, -⟩ | ⟨own, isName, isWritten⟩
      · rw [isName] at isOwn
        cases isOwn
      · rw [isName] at isOwn
        rw [List.mem_singleton.mp isOwn, isWritten]
        exact List.mem_cons_self
    · rw [← flatMap_zip_children] at isBelow
      exact List.mem_cons_of_mem _ (inChildren name isBelow)

/-! ## Accepted texts -/

theorem plain_of_regular {item : Item} (regular : AreRegular [item]) :
    ∀ name ∈ writtenNames item, '/' ∉ name.toList := by
  intro name nameIn slashIn
  obtain ⟨written, writtenIn, isName⟩ := List.mem_filterMap.mp nameIn
  obtain ⟨node, nodeIn, rfl⟩ := List.mem_map.mp writtenIn
  obtain ⟨own, isOwn, rfl⟩ := Option.map_eq_some_iff.mp isName
  have nodeRegular := regular node (by rwa [List.flatMap_singleton])
  exact absurd (nodeRegular.name own isOwn '/' slashIn) (by decide)

/-- Once the names are given, only one of them can be given again: that of the
block around all items, which is not looked for among the names. -/
theorem ids_nodup_iff {source : String} {members : List Item}
    {program : Program (Label Float32)} {given : List String}
    (read : readItems source = .ok members)
    (run : (named rootId (blockOf members)).run [] = .ok (program, given)) :
    program.ids.Nodup ↔ rootId ∉ writtenNames (blockOf members) := by
  have names := names_of_named run
  have isRoot : program.label.id = rootId := by
    rcases names.id_mem with ⟨-, isDerived⟩ | ⟨name, isName, -⟩
    · exact isDerived
    · cases isName
  have plain := plain_of_regular (areRegular_of_readItems read)
  constructor
  · intro distinct isWritten
    obtain ⟨between, -, below⟩ := names.below
    rw [writtenNames_eq, ← flatMap_zip_children] at isWritten
    have again := below.mem_ids (fun _ _ => Names.mem_ids) rootId isWritten
    rw [Program.ids_eq, isRoot] at distinct
    exact (List.nodup_cons.mp distinct).1 again
  · intro notWritten
    obtain ⟨isGiven, distinct⟩ := names.given_eq
    rw [List.append_nil] at isGiven
    rw [isGiven, List.nodup_reverse] at distinct
    refine names.ids_nodup ⟨plain, distinct List.nodup_nil, ?_⟩
    intro name nameIn goesOn
    rw [way_prefix_iff (plain name nameIn) (by decide)] at goesOn
    exact notWritten (goesOn ▸ nameIn)

theorem ids_ofProgram {α : Type} (program : Program (Label α)) :
    ((Tree.ofProgram program).nodes.toList.map fun node => node.id).Perm
      program.ids := by
  obtain ⟨located, rfl, contains⟩ := Tree.exists_ofProgram program
  rw [contains.nodes, List.map_map, Program.ids_written]
  exact located.postorder_perm_preorder.map _

/-- The nodes of a parsed tree have distinct identities just when the name of
the whole outline is not written for one of its items. -/
theorem parse_distinct_iff {source : String} {tree : Tree Float32}
    (accepted : parse source = .ok tree) :
    ∃ members, readItems source = .ok members ∧
      ((tree.nodes.toList.map fun node => node.id).Nodup ↔
        rootId ∉ writtenNames (blockOf members)) := by
  obtain ⟨members, program, given, read, run, rfl⟩ := of_parse accepted
  refine ⟨members, read, ?_⟩
  rw [(ids_ofProgram program).nodup_iff]
  exact ids_nodup_iff read run

/-- Names at a decision after `else` and in its body. -/
def namedBranches : String :=
  "if \"a\" @x \x7b \x7d else if \"b\" \x7b expr \"c\" @y; \x7d"

/-- Names and derived identities do not meet. -/
theorem parse_distinct_namedBranches : ∃ tree,
    parse namedBranches = .ok tree ∧
      (tree.nodes.toList.map fun node => node.id).Nodup := by
  have parsed : (parse namedBranches).toOption.map (fun _ => ()) = some () := by
    decide +kernel
  have written : (readItems namedBranches).toOption.map
      (fun members => writtenNames (blockOf members)) = some ["x", "y"] := by
    decide +kernel
  obtain ⟨tree, accepted, -⟩ := exists_of_toOption parsed
  obtain ⟨members, read, distinct⟩ := parse_distinct_iff accepted
  obtain ⟨others, readToo, areWritten⟩ := exists_of_toOption written
  obtain rfl := Except.ok.inj (read.symm.trans readToo)
  exact ⟨tree, accepted, distinct.mpr (areWritten ▸ by decide)⟩

/-- The name of the whole outline may be written for an item, and the block
around all items has it too. -/
theorem not_all_parse_distinct : ¬ ∀ source tree, parse source = .ok tree →
    (tree.nodes.toList.map fun node => node.id).Nodup := by
  intro all
  have parsed : (parse "expr \"a\" @module;").toOption.map
      (fun tree => tree.nodes.toList.map fun node => node.id) =
        some ["module", "module"] := by
    decide +kernel
  obtain ⟨tree, accepted, ids⟩ := exists_of_toOption parsed
  have distinct := all _ tree accepted
  rw [ids] at distinct
  exact absurd distinct (by decide)

end Outline

end Flowchart
