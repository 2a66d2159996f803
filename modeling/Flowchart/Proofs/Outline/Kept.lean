import Flowchart.Proofs.Outline.Identities

/-!
# What is kept of an outline

A way of places leads from the root to one node, in an outline as in the tree
that is stored for it.  Both ways lead to the same construct with the same text
and name.  The size that is written is kept too, but for the block of an arm.
-/

namespace Flowchart

/-- An arm of a selection hangs here. -/
def SlotName.isArm : SlotName → Bool
  | .arm _ => true
  | _ => false

/-! ## The end of a way -/

namespace Program

variable {L M : Type}

/-- The node that a way of places leads to. -/
def at? : List SlotName → Program L → Option (Program L)
  | [], program => some program
  | place :: way, program =>
      ((program.places.zip program.children).lookup place).bind (at? way)

theorem places_map (change : L → M) (program : Program L) :
    (program.map change).places = program.places := by
  cases program with
  | decision label consequent alternative => cases alternative <;> rfl
  | _ => simp [map, places, mapMembers_eq, mapArms_eq]

theorem mem_of_lookup {program child : Program L} {place : SlotName}
    (found : (program.places.zip program.children).lookup place = some child) :
    place ∈ program.places ∧ child ∈ program.children := by
  obtain ⟨before, after, entries, -⟩ := List.lookup_eq_some_iff.mp found
  have isIn : (place, child) ∈ program.places.zip program.children := by
    rw [entries]
    exact List.mem_append_right _ List.mem_cons_self
  exact List.of_mem_zip isIn

end Program

namespace Tree

variable {α : Type}

/-- The handle that a way of places leads to. -/
def at? (tree : Tree α) : List SlotName → Handle → Option Handle
  | [], handle => some handle
  | place :: way, handle =>
      ((tree.children handle).lookup place).bind (tree.at? way)

end Tree

theorem lookup_zip_map {β γ δ : Type} [BEq β] (keys : List β) (values : List γ)
    (change : γ → δ) (key : β) :
    (keys.zip (values.map change)).lookup key =
      ((keys.zip values).lookup key).map change := by
  induction keys generalizing values with
  | nil => rfl
  | cons first rest ih =>
      cases values with
      | nil => rfl
      | cons value others =>
          rw [List.map_cons, List.zip_cons_cons, List.zip_cons_cons,
            List.lookup_cons, List.lookup_cons, ih]
          cases key == first <;> rfl

/-- A way leads to the same node in a program and in a tree that holds it. -/
theorem Tree.Holds.at?_eq {α : Type} {tree : Tree α} {program : Located α}
    (holds : tree.Holds program) {way : List SlotName}
    {node : Program (Label α)} (found : program.written.at? way = some node) :
    ∃ located : Located α, located.written = node ∧
      tree.at? way program.handle = some located.handle ∧
        tree.node? located.handle = some located.node := by
  induction way generalizing program with
  | nil =>
      obtain rfl := Option.some.inj found
      exact ⟨program, rfl, rfl, holds.root⟩
  | cons place way ih =>
      obtain ⟨child, isChild, found⟩ := Option.bind_eq_some_iff.mp found
      rw [Program.written, Program.places_map, ← Program.written,
        Program.children_written, lookup_zip_map] at isChild
      obtain ⟨located, isLocated, rfl⟩ := Option.map_eq_some_iff.mp isChild
      have childIn := (Program.mem_of_lookup isLocated).2
      obtain ⟨end_, isEnd, leads, stored⟩ := ih (holds.child childIn) found
      refine ⟨end_, isEnd, ?_, stored⟩
      rw [Tree.at?, holds.children_eq, lookup_zip_map, isLocated]
      exact leads

namespace Outline

/-! ## What is kept at a node -/

/-- What a program keeps of an item, apart from what lies below. -/
structure Keeps (inArm : Bool) (item : Item) (program : Program (Label Float32)) :
    Prop where
  tag : program.tag = item.tag
  text : program.label.text = item.label.text
  name : ∀ name, item.label.name = some name → program.label.id = name.text
  hint : program.label.hint = if inArm then none else item.label.hint

theorem Names.keeps {derived : NodeId} {item : Item}
    {program : Program (Label Float32)} {before after : List String}
    (names : Names derived item program before after) :
    Keeps false item program where
  tag := names.tag
  text := names.text
  name := by
    intro name isName
    rcases names.id_mem with ⟨isNone, -⟩ | ⟨own, isOwn, isWritten⟩
    · rw [isName] at isNone
      cases isNone
    · obtain rfl := Option.some.inj (isName.symm.trans isOwn)
      exact isWritten
  hint := names.hint

/-- The block of an arm keeps all but its size. -/
theorem Keeps.stored {item : Item} {program : Program (Label Float32)}
    (keeps : Keeps false item program) {place : SlotName}
    (isBlock : place.isArm = true → item.tag = .block) :
    Keeps place.isArm item (storedAt place program) where
  tag := by rw [tag_storedAt, keeps.tag]
  text := by rw [text_storedAt, keeps.text]
  name := by
    rw [id_storedAt]
    exact keeps.name
  hint := by
    cases place with
    | arm index =>
        have programBlock := keeps.tag.trans (isBlock rfl)
        cases program with
        | block label members => rfl
        | _ => cases programBlock
    | _ => exact keeps.hint

theorem NamesBelow.lookup {parent : NodeId} {places : List (SlotName × Item)}
    {programs : List (Program (Label Float32))} {before after : List String}
    (below : NamesBelow parent places programs before after) {place : SlotName}
    {item : Item} (found : places.lookup place = some item) :
    ∃ program before after,
      Names (parent.child place.step) item program before after ∧
        ((places.map Prod.fst).zip programs).lookup place =
          some (storedAt place program) := by
  induction below with
  | nil => cases found
  | @cons first child rest program programs before between after run _ ih =>
      rw [List.lookup_cons] at found
      rw [List.map_cons, List.zip_cons_cons]
      by_cases isFirst : place = first
      · subst isFirst
        rw [beq_self_eq_true] at found
        obtain rfl := Option.some.inj found
        exact ⟨program, before, between, names_of_named run,
          List.lookup_cons_self⟩
      · rw [beq_eq_false_iff_ne.mpr isFirst] at found
        rw [List.lookup_cons, beq_eq_false_iff_ne.mpr isFirst]
        exact ih found

theorem tag_of_lookup_arm {item child : Item} (regular : IsRegular item)
    {place : SlotName} (isArm : place.isArm = true)
    (found : (item.places.zip item.children).lookup place = some child) :
    child.tag = .block := by
  obtain ⟨placeIn, childIn⟩ := Program.mem_of_lookup found
  cases item with
  | selection label arms =>
      obtain ⟨arm, armIn, rfl⟩ := List.mem_map.mp childIn
      exact regular.hangsWell arm armIn
  | block label members =>
      obtain ⟨index, -, rfl⟩ := List.mem_map.mp placeIn
      cases isArm
  | decision label consequent alternative =>
      cases alternative with
      | none =>
          obtain rfl := List.mem_singleton.mp placeIn
          cases isArm
      | some alternative =>
          rcases List.mem_pair.mp placeIn with rfl | rfl
          · cases isArm
          · cases isArm
  | loop label kind body | container label kind body =>
      obtain rfl := List.mem_singleton.mp placeIn
      cases isArm
  | _ => cases placeIn

/-- Naming keeps what is written at every node. -/
theorem Names.at?_keeps {derived : NodeId} {item found : Item}
    {program : Program (Label Float32)} {before after : List String}
    (names : Names derived item program before after)
    (regular : AreRegular [item]) {way : List SlotName}
    (isFound : item.at? way = some found) :
    ∃ node, program.at? way = some node ∧
      Keeps (way.getLast?.any SlotName.isArm) found node := by
  induction way generalizing derived item program before after with
  | nil =>
      obtain rfl := Option.some.inj isFound
      exact ⟨program, rfl, names.keeps⟩
  | cons place way ih =>
      obtain ⟨child, isChild, isFound⟩ := Option.bind_eq_some_iff.mp isFound
      obtain ⟨nodeRegular, childrenRegular⟩ := areRegular_singleton.mp regular
      have childIn := (Program.mem_of_lookup isChild).2
      have childRegular := childrenRegular.of_mem childIn
      obtain ⟨between, -, below⟩ := names.below
      obtain ⟨inner, _, _, innerNames, isInner⟩ := below.lookup isChild
      rw [List.map_fst_zip item.length_places.le, ← names.places] at isInner
      obtain ⟨node, isNode, keeps⟩ := ih innerNames childRegular isFound
      cases way with
      | nil =>
          obtain rfl := Option.some.inj isFound
          refine ⟨storedAt place inner, ?_, innerNames.keeps.stored fun isArm =>
            tag_of_lookup_arm nodeRegular isArm isChild⟩
          rw [Program.at?, isInner]
          rfl
      | cons next rest =>
          refine ⟨node, ?_, ?_⟩
          · rw [Program.at?, isInner, Option.bind_some, Program.at?,
              places_storedAt, children_storedAt]
            exact isNode
          · rw [List.getLast?_cons_cons]
            exact keeps

/-! ## Accepted texts -/

/-- Whatever is written at an item or an arm is found at the node of the tree in
the same place, but for the size that is written for an arm. -/
theorem parse_keeps {source : String} {tree : Tree Float32}
    (accepted : parse source = .ok tree) :
    ∃ members root, readItems source = .ok members ∧ tree.root = some root ∧
      ∀ way item, (blockOf members).at? way = some item →
        ∃ handle node, tree.at? way root = some handle ∧
          tree.node? handle = some node ∧ node.tag = item.tag ∧
          node.text = item.label.text ∧
          (∀ name, item.label.name = some name → node.id = name.text) ∧
          node.hint =
            if way.getLast?.any SlotName.isArm then none else item.label.hint := by
  obtain ⟨members, program, given, read, run, rfl⟩ := of_parse accepted
  obtain ⟨located, rfl, contains⟩ := Tree.exists_ofProgram program
  refine ⟨members, located.handle, read, contains.root, fun way item isItem => ?_⟩
  obtain ⟨kept, isKept, keeps⟩ := (names_of_named run).at?_keeps
    (areRegular_of_readItems read) isItem
  obtain ⟨node, rfl, leads, stored⟩ := contains.holds.at?_eq isKept
  have sameLabel := Program.label_written node
  have tag := keeps.tag
  have text := keeps.text
  have name := keeps.name
  have hint := keeps.hint
  rw [sameLabel] at text name hint
  rw [Program.tag_written] at tag
  exact ⟨node.handle, node.node, leads, stored,
    (Program.tag_construct node).trans tag, text, name, hint⟩

/-- An arm and a block in it, each with a name and a size. -/
def sizedArm : String :=
  "match \"m\" \x7b case \"c\" @arm [width=200] " ++
    "\x7b block @inner [width=200] \x7b \x7d \x7d \x7d"

/-- The name of the item at the end of a way, and whether it has a size. -/
def writtenAt (members : List Item) (way : List SlotName) :
    Option (Option String × Bool) :=
  ((blockOf members).at? way).map fun item =>
    (item.label.name.map Name.text, item.label.hint.isSome)

theorem of_writtenAt {members : List Item} {way : List SlotName} {name : String}
    {sized : Bool} (isWritten : writtenAt members way = some (some name, sized)) :
    ∃ item given, (blockOf members).at? way = some item ∧
      item.label.name = some given ∧ given.text = name ∧
        item.label.hint.isSome = sized := by
  obtain ⟨item, isItem, seen⟩ := Option.map_eq_some_iff.mp isWritten
  obtain ⟨isName, isSized⟩ := Prod.mk.inj seen
  obtain ⟨given, isGiven, isText⟩ := Option.map_eq_some_iff.mp isName
  exact ⟨item, given, isItem, isGiven, isText, isSized⟩

/-- The block in the arm keeps its size, and the arm keeps its name only. -/
theorem parse_keeps_sizedArm : ∃ tree root, parse sizedArm = .ok tree ∧
    tree.root = some root ∧
    (∃ handle node, tree.at? [.member 0, .arm 0] root = some handle ∧
      tree.node? handle = some node ∧ node.id = "arm" ∧ node.hint = none) ∧
    ∃ handle node, tree.at? [.member 0, .arm 0, .member 0] root = some handle ∧
      tree.node? handle = some node ∧ node.id = "inner" ∧
        node.hint.isSome = true := by
  have parsed : (parse sizedArm).toOption.map (fun _ => ()) = some () := by
    decide +kernel
  have written : (readItems sizedArm).toOption.map (fun members =>
      (writtenAt members [.member 0, .arm 0],
        writtenAt members [.member 0, .arm 0, .member 0])) =
      some (some (some "arm", true), some (some "inner", true)) := by
    decide +kernel
  obtain ⟨tree, accepted, -⟩ := exists_of_toOption parsed
  obtain ⟨others, readToo, seen⟩ := exists_of_toOption written
  obtain ⟨members, root, read, isRoot, keeps⟩ := parse_keeps accepted
  obtain rfl := Except.ok.inj (read.symm.trans readToo)
  obtain ⟨armSeen, innerSeen⟩ := Prod.mk.inj seen
  obtain ⟨arm, armName, isArm, armNamed, armText, -⟩ := of_writtenAt armSeen
  obtain ⟨inner, innerName, isInner, innerNamed, innerText, innerSized⟩ :=
    of_writtenAt innerSeen
  refine ⟨tree, root, accepted, isRoot, ?_, ?_⟩
  · obtain ⟨handle, node, leads, stored, -, -, name, hint⟩ := keeps _ arm isArm
    exact ⟨handle, node, leads, stored, (name armName armNamed).trans armText, hint⟩
  · obtain ⟨handle, node, leads, stored, -, -, name, hint⟩ := keeps _ inner isInner
    refine ⟨handle, node, leads, stored,
      (name innerName innerNamed).trans innerText, ?_⟩
    rw [hint]
    exact innerSized

/-- The size that is written for an arm is lost. -/
theorem not_all_sizes_kept : ¬ ∀ source members tree root way item handle node,
    readItems source = .ok members → parse source = .ok tree →
    tree.root = some root → (blockOf members).at? way = some item →
    tree.at? way root = some handle → tree.node? handle = some node →
    ∀ hint, item.label.hint = some hint → node.hint = some hint := by
  intro all
  have written : (readItems sizedArm).toOption.map (fun members =>
      writtenAt members [.member 0, .arm 0]) = some (some (some "arm", true)) := by
    decide +kernel
  have stored : (parse sizedArm).toOption.map (fun tree =>
      tree.root.bind fun root => (tree.at? [.member 0, .arm 0] root).bind
        fun handle => (tree.node? handle).map fun node => node.hint.isSome) =
      some (some false) := by
    decide +kernel
  obtain ⟨members, read, armSeen⟩ := exists_of_toOption written
  obtain ⟨tree, accepted, nodeSeen⟩ := exists_of_toOption stored
  obtain ⟨arm, name, isArm, -, -, sized⟩ := of_writtenAt armSeen
  obtain ⟨root, isRoot, nodeSeen⟩ := Option.bind_eq_some_iff.mp nodeSeen
  obtain ⟨handle, leads, nodeSeen⟩ := Option.bind_eq_some_iff.mp nodeSeen
  obtain ⟨node, isNode, unsized⟩ := Option.map_eq_some_iff.mp nodeSeen
  obtain ⟨hint, isHint⟩ := Option.isSome_iff_exists.mp sized
  have kept := all _ members tree root _ arm handle node read accepted isRoot isArm
    leads isNode hint isHint
  rw [kept] at unsized
  cases unsized

end Outline

end Flowchart
