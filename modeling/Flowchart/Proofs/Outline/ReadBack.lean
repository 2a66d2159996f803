import Flowchart.Proofs.Outline.Naming
import Flowchart.Proofs.Outline.Shape
import Flowchart.Proofs.Tree.Whole

/-!
# Items read back

The tree of an outline is built from its items, children before their parents.  Read
from its root it gives the items again, each with its kind and text, at the place
where it was written and with the identity that it has there.
-/

namespace Flowchart

/-! ## What a tree reads as -/

/-- The identity of a node: its name, or else the one derived from its place. -/
def Outline.Written.idOr (written : Outline.Written) (derived : NodeId) : NodeId :=
  match written.name with
  | some name => name.text
  | none => derived

open Outline

/-- A node of this identity, text and construct is stored at a handle. -/
def Tree.NodeIs (tree : Tree Float32) (handle : Handle) (id : NodeId) (text : String)
    (construct : Construct) : Prop :=
  ∃ hint, tree.node? handle = some ⟨⟨id, text, hint⟩, construct⟩

/-- From a handle on the tree reads as an item, whose identity is the one derived
unless it has a name.  Members and arms are counted from the front. -/
inductive Tree.ReadsAs (tree : Tree Float32) : NodeId → Item → Handle → Prop where
  | statement {derived : NodeId} {written : Written} {kind : StatementKind}
      {handle : Handle} :
      tree.NodeIs handle (written.idOr derived) written.text (.statement kind) →
      tree.ReadsAs derived (.statement written kind) handle
  | block {derived : NodeId} {written : Written} {members : List Item}
      {handle : Handle} {children : List Handle} :
      tree.NodeIs handle (written.idOr derived) written.text (.block children) →
      children.length = members.length →
      (∀ (index : Nat) member child, members[index]? = some member →
        children[index]? = some child →
        tree.ReadsAs ((written.idOr derived).child (toString index)) member child) →
      tree.ReadsAs derived (.block written members) handle
  | decision {derived : NodeId} {written : Written} {consequent : Item}
      {handle first : Handle} :
      tree.NodeIs handle (written.idOr derived) written.text
        (.decision (some first) none) →
      tree.ReadsAs ((written.idOr derived).child "then") consequent first →
      tree.ReadsAs derived (.decision written consequent none) handle
  | choice {derived : NodeId} {written : Written} {consequent alternative : Item}
      {handle first second : Handle} :
      tree.NodeIs handle (written.idOr derived) written.text
        (.decision (some first) (some second)) →
      tree.ReadsAs ((written.idOr derived).child "then") consequent first →
      tree.ReadsAs ((written.idOr derived).child "else") alternative second →
      tree.ReadsAs derived (.decision written consequent (some alternative)) handle
  | selection {derived : NodeId} {written : Written} {arms : List (String × Item)}
      {handle : Handle} {stored : List Arm} {bodies : List Handle} :
      tree.NodeIs handle (written.idOr derived) written.text (.selection stored) →
      stored.map Arm.pattern = arms.map Prod.fst →
      stored.map Arm.body = bodies.map some →
      (∀ (index : Nat) pattern body child, arms[index]? = some (pattern, body) →
        bodies[index]? = some child →
        tree.ReadsAs ((written.idOr derived).child ("case-" ++ toString index)) body
          child) →
      tree.ReadsAs derived (.selection written arms) handle
  | loop {derived : NodeId} {written : Written} {kind : LoopKind} {body : Item}
      {handle child : Handle} :
      tree.NodeIs handle (written.idOr derived) written.text
        (.loop kind (some child)) →
      tree.ReadsAs ((written.idOr derived).child "body") body child →
      tree.ReadsAs derived (.loop written kind body) handle
  | result {derived : NodeId} {written : Written} {handle : Handle} :
      tree.NodeIs handle (written.idOr derived) written.text .result →
      tree.ReadsAs derived (.result written) handle
  | container {derived : NodeId} {written : Written} {kind : ContainerKind}
      {body : Item} {handle child : Handle} :
      tree.NodeIs handle (written.idOr derived) written.text
        (.container kind (some child)) →
      tree.ReadsAs ((written.idOr derived).child "body") body child →
      tree.ReadsAs derived (.container written kind body) handle
  | typeDefinition {derived : NodeId} {written : Written} {handle : Handle} :
      tree.NodeIs handle (written.idOr derived) written.text .typeDefinition →
      tree.ReadsAs derived (.typeDefinition written) handle

namespace Outline

open Naming

/-! ## What is named below a node -/

section

variable {parent : NodeId} {places : List (SlotName × Item)}
  {programs : List (Program (Label Float32))} {before after : List String}

/-- What lies at a place was named after it. -/
theorem NamesBelow.exists_run (below : NamesBelow parent places programs before after)
    {index : Nat} {place : SlotName} {item : Item} {stored : Program (Label Float32)}
    (isPlace : places[index]? = some (place, item))
    (isStored : programs[index]? = some stored) :
    ∃ program given further,
      (named (parent.child place.step) item).run given = .ok (program, further) ∧
        storedAt place program = stored := by
  induction below generalizing index with
  | nil given => cases isPlace
  | cons _ run _ ih =>
      cases index with
      | zero =>
          obtain ⟨rfl, rfl⟩ := Prod.mk.inj (Option.some.inj isPlace)
          exact ⟨_, _, _, run, Option.some.inj isStored⟩
      | succ index => exact ih isPlace isStored

theorem getElem?_numbered (name : Nat → SlotName) {items : List Item} {index : Nat}
    {item : Item} (isItem : items[index]? = some item) :
    (((List.range' 0 items.length).map name).zip items)[index]? =
      some (name index, item) := by
  have inside : index < items.length := (List.getElem?_eq_some_iff.mp isItem).1
  refine List.getElem?_zip_eq_some.mpr ⟨?_, isItem⟩
  rw [List.getElem?_map, List.getElem?_range' inside]
  simp

theorem patterns_of_namedArms {arms : List (String × Item)} {index : Nat}
    {stored : List (String × Program (Label Float32))}
    (run : (namedArms parent index arms).run before = .ok (stored, after)) :
    stored.map Prod.fst = arms.map Prod.fst := by
  induction arms generalizing index stored before with
  | nil =>
      obtain ⟨rfl, rfl⟩ := pure_run_eq_ok.mp run
      rfl
  | cons first rest ih =>
      simp only [namedArms, bind_run_eq_ok, pure_run_eq_ok] at run
      obtain ⟨body, between, -, others, _, later, rfl, rfl⟩ := run
      rw [List.map_cons, List.map_cons, ih later]

theorem id_of_labelled {written : Written} {derived : NodeId} {label : Label Float32}
    (run : (labelled written derived).run before = .ok (label, after)) :
    label.id = written.idOr derived ∧ label.text = written.text := by
  obtain ⟨identified, text, -⟩ := of_labelled run
  refine ⟨?_, text⟩
  rw [Written.idOr]
  cases isName : written.name with
  | none =>
      rw [isName] at identified
      exact (identify_none_eq_ok.mp identified).1.symm
  | some name =>
      rw [isName] at identified
      exact (identify_name_eq_ok.mp identified).2.1.symm

theorem storedAt_eq {place : SlotName} {program : Program (Label Float32)}
    (noBlock : program.tag ≠ .block) : storedAt place program = program := by
  cases program with
  | block label members => exact absurd rfl noBlock
  | _ => cases place <;> rfl

end

/-! ## Reading items back -/

section

variable {tree : Tree Float32} {located : Located Float32} {derived : NodeId}
  {place : SlotName} {program : Program (Label Float32)} {written : Written}
  {before between after : List String}

/-- The root of a program that is named has what is written for it. -/
theorem nodeIs_of_labelled (holds : tree.Holds located)
    (same : located.written = storedAt place program)
    (run : (labelled written derived).run before = .ok (program.label, between)) :
    tree.NodeIs located.handle (written.idOr derived) written.text
      located.construct := by
  obtain ⟨isId, isText⟩ := id_of_labelled run
  have id : located.label.2.id = written.idOr derived := by
    rw [← Program.label_written, same, id_storedAt, isId]
  have text : located.label.2.text = written.text := by
    rw [← Program.label_written, same, text_storedAt, isText]
  rw [← id, ← text]
  exact ⟨located.label.2.hint, holds.root⟩

theorem tag_of_stored (same : located.written = storedAt place program) :
    located.tag = program.tag := by
  rw [← Program.tag_written, same, tag_storedAt]

theorem children_of_stored (same : located.written = storedAt place program) :
    located.children.map Program.written = program.children := by
  rw [← Program.children_written, same, children_storedAt]

/-- However it was named and wherever it is held, the tree reads as this item. -/
def ReadsBack (tree : Tree Float32) (item : Item) : Prop :=
  ∀ {located derived program before after}, tree.Holds located → ∀ place,
    located.written = storedAt place program →
      (named derived item).run before = .ok (program, after) →
        tree.ReadsAs derived item located.handle

/-- The children at numbered places read as the items that were named there. -/
theorem readsAs_numbered {id : NodeId} {name : Nat → SlotName} {items : List Item}
    {children : List (Located Float32)} {programs : List (Program (Label Float32))}
    (each : ∀ item ∈ items, ReadsBack tree item)
    (below : NamesBelow id (((List.range' 0 items.length).map name).zip items)
      programs before after)
    (areStored : children.map Program.written = programs)
    (areHeld : ∀ child ∈ children, tree.Holds child) {index : Nat} {item : Item}
    {handle : Handle} (isItem : items[index]? = some item)
    (isHandle : (children.map Program.handle)[index]? = some handle) :
    tree.ReadsAs (id.child (name index).step) item handle := by
  rw [List.getElem?_map, Option.map_eq_some_iff] at isHandle
  obtain ⟨child, isChild, rfl⟩ := isHandle
  have isProgram : programs[index]? = some child.written := by
    rw [← areStored, List.getElem?_map, isChild, Option.map_some]
  obtain ⟨program, given, further, run, same⟩ :=
    below.exists_run (getElem?_numbered name isItem) isProgram
  exact each item (List.mem_of_getElem? isItem)
    (areHeld child (List.mem_of_getElem? isChild)) (name index) same.symm run

namespace ReadsBack

variable {kind : StatementKind} {consequent alternative body : Item}
  {members : List Item} {arms : List (String × Item)}

theorem statement : ReadsBack tree (.statement written kind) := by
  intro located derived program before after holds place same run
  simp only [named, bind_run_eq_ok, pure_run_eq_ok] at run
  obtain ⟨label, between, labelledAs, rfl, rfl⟩ := run
  have isNode := nodeIs_of_labelled holds same labelledAs
  have isStatement := tag_of_stored same
  cases located with
  | statement own ownKind =>
      rw [storedAt_eq Tag.noConfusion] at same
      obtain ⟨-, rfl⟩ := Program.statement.inj same
      exact .statement isNode
  | _ => cases isStatement

theorem result : ReadsBack tree (.result written) := by
  intro located derived program before after holds place same run
  simp only [named, bind_run_eq_ok, pure_run_eq_ok] at run
  obtain ⟨label, between, labelledAs, rfl, rfl⟩ := run
  have isNode := nodeIs_of_labelled holds same labelledAs
  have isResult := tag_of_stored same
  cases located with
  | result own => exact .result isNode
  | _ => cases isResult

theorem typeDefinition : ReadsBack tree (.typeDefinition written) := by
  intro located derived program before after holds place same run
  simp only [named, bind_run_eq_ok, pure_run_eq_ok] at run
  obtain ⟨label, between, labelledAs, rfl, rfl⟩ := run
  have isNode := nodeIs_of_labelled holds same labelledAs
  have isDefinition := tag_of_stored same
  cases located with
  | typeDefinition own => exact .typeDefinition isNode
  | _ => cases isDefinition

theorem block (each : ∀ member ∈ members, ReadsBack tree member) :
    ReadsBack tree (.block written members) := by
  intro located derived program before after holds place same run
  simp only [named, bind_run_eq_ok, pure_run_eq_ok] at run
  obtain ⟨label, between, labelledAs, programs, _, membersNamed, rfl, rfl⟩ := run
  have isNode := nodeIs_of_labelled holds same labelledAs
  have below := of_namedMembers membersNamed
  rw [(id_of_labelled labelledAs).1] at below
  have isBlock := tag_of_stored same
  cases located with
  | block own children =>
      have areStored : children.map Program.written = programs :=
        children_of_stored same
      refine .block isNode ?_ fun index member child isMember isChild => ?_
      · have counted := below.length_eq
        rw [← areStored, List.length_map] at counted
        simpa using counted
      · exact readsAs_numbered each below areStored (fun _ => holds.child) isMember
          isChild
  | _ => cases isBlock

theorem decision (reads : ReadsBack tree consequent) :
    ReadsBack tree (.decision written consequent none) := by
  intro located derived program before after holds place same run
  simp only [named, bind_run_eq_ok, pure_run_eq_ok] at run
  obtain ⟨label, between, labelledAs, inner, _, bodyNamed, rfl, rfl⟩ := run
  have isNode := nodeIs_of_labelled holds same labelledAs
  rw [(id_of_labelled labelledAs).1] at bodyNamed
  have isDecision := tag_of_stored same
  cases located with
  | decision own first second =>
      have areStored := children_of_stored same
      cases second with
      | none =>
          have isFirst := List.singleton_inj.mp areStored
          exact .decision isNode
            (reads (holds.child List.mem_cons_self) .consequent isFirst bodyNamed)
      | some second => cases areStored
  | _ => cases isDecision

theorem choice (reads : ReadsBack tree consequent)
    (otherReads : ReadsBack tree alternative) :
    ReadsBack tree (.decision written consequent (some alternative)) := by
  intro located derived program before after holds place same run
  simp only [named, bind_run_eq_ok, pure_run_eq_ok] at run
  obtain ⟨label, between, labelledAs, inner, _, bodyNamed, other, _, otherNamed,
    rfl, rfl⟩ := run
  have isNode := nodeIs_of_labelled holds same labelledAs
  rw [(id_of_labelled labelledAs).1] at bodyNamed otherNamed
  have isDecision := tag_of_stored same
  cases located with
  | decision own first second =>
      have areStored := children_of_stored same
      cases second with
      | none => cases areStored
      | some second =>
          obtain ⟨isFirst, rest⟩ := List.cons.inj areStored
          have isSecond := List.singleton_inj.mp rest
          have firstHeld : tree.Holds first := holds.child List.mem_cons_self
          have secondHeld : tree.Holds second :=
            holds.child (List.mem_cons_of_mem _ List.mem_cons_self)
          exact .choice isNode (reads firstHeld .consequent isFirst bodyNamed)
            (otherReads secondHeld .alternative isSecond otherNamed)
  | _ => cases isDecision

theorem selection (each : ∀ arm ∈ arms, ReadsBack tree arm.2) :
    ReadsBack tree (.selection written arms) := by
  intro located derived program before after holds place same run
  simp only [named, bind_run_eq_ok, pure_run_eq_ok] at run
  obtain ⟨label, between, labelledAs, programs, _, armsNamed, rfl, rfl⟩ := run
  have isNode := nodeIs_of_labelled holds same labelledAs
  rw [(id_of_labelled labelledAs).1] at armsNamed
  have below := (of_namedArms armsNamed).2
  rw [← List.length_map (f := Prod.snd)] at below
  have reads : ∀ body ∈ arms.map Prod.snd, ReadsBack tree body :=
    List.forall_mem_map.mpr each
  have isSelection := tag_of_stored same
  cases located with
  | selection own stored =>
      have areStored : (stored.map Prod.snd).map Program.written =
          programs.map Prod.snd := children_of_stored same
      rw [storedAt_eq Tag.noConfusion] at same
      have patterns : stored.map Prod.fst = arms.map Prod.fst := by
        rw [← patterns_of_namedArms armsNamed, ← (Program.selection.inj same).2,
          Program.mapArms_eq, List.map_map]
        rfl
      have bodies : (stored.map fun arm => some arm.2.handle) =
          ((stored.map Prod.snd).map Program.handle).map some := by
        simp [Function.comp_def]
      refine .selection isNode (List.map_map.trans patterns)
        (List.map_map.trans bodies) fun index pattern body child isArm isChild => ?_
      have isBody : (arms.map Prod.snd)[index]? = some body := by
        rw [List.getElem?_map, isArm, Option.map_some]
      exact readsAs_numbered reads below areStored (fun _ => holds.child) isBody
        isChild
  | _ => cases isSelection

theorem loop {kind : LoopKind} (reads : ReadsBack tree body) :
    ReadsBack tree (.loop written kind body) := by
  intro located derived program before after holds place same run
  simp only [named, bind_run_eq_ok, pure_run_eq_ok] at run
  obtain ⟨label, between, labelledAs, inner, _, bodyNamed, rfl, rfl⟩ := run
  have isNode := nodeIs_of_labelled holds same labelledAs
  rw [(id_of_labelled labelledAs).1] at bodyNamed
  have isLoop := tag_of_stored same
  cases located with
  | loop own ownKind child =>
      obtain rfl := Tag.loop.inj isLoop
      have isBody := List.singleton_inj.mp (children_of_stored same)
      exact .loop isNode
        (reads (holds.child List.mem_cons_self) .body isBody bodyNamed)
  | _ => cases isLoop

theorem container {kind : ContainerKind} (reads : ReadsBack tree body) :
    ReadsBack tree (.container written kind body) := by
  intro located derived program before after holds place same run
  simp only [named, bind_run_eq_ok, pure_run_eq_ok] at run
  obtain ⟨label, between, labelledAs, inner, _, bodyNamed, rfl, rfl⟩ := run
  have isNode := nodeIs_of_labelled holds same labelledAs
  rw [(id_of_labelled labelledAs).1] at bodyNamed
  have isContainer := tag_of_stored same
  cases located with
  | container own ownKind child =>
      obtain rfl := Tag.container.inj isContainer
      have isBody := List.singleton_inj.mp (children_of_stored same)
      exact .container isNode
        (reads (holds.child List.mem_cons_self) .body isBody bodyNamed)
  | _ => cases isContainer

end ReadsBack

/-- What was built from an item reads as this item. -/
theorem readsBack (item : Item) : ReadsBack tree item := by
  induction item using Program.induction with
  | statement written kind => exact ReadsBack.statement
  | block written members ih => exact ReadsBack.block ih
  | decision written consequent ih => exact ReadsBack.decision ih
  | choice written consequent alternative ih otherIh =>
      exact ReadsBack.choice ih otherIh
  | selection written arms ih => exact ReadsBack.selection ih
  | loop written kind body ih => exact ReadsBack.loop ih
  | result written => exact ReadsBack.result
  | container written kind body ih => exact ReadsBack.container ih
  | typeDefinition written => exact ReadsBack.typeDefinition

end

/-! ## Nothing else is stored -/

theorem length_preorder_storedAt (place : SlotName)
    (program : Program (Label Float32)) :
    (storedAt place program).preorder.length = program.preorder.length := by
  rw [Program.preorder_eq, Program.preorder_eq program, children_storedAt,
    List.length_cons, List.length_cons]

theorem NamesBelow.length_preorder {parent : NodeId} {places : List (SlotName × Item)}
    {programs : List (Program (Label Float32))} {before after : List String}
    (below : NamesBelow parent places programs before after)
    (each : ∀ entry ∈ places, ∀ {derived program before after},
      Names derived entry.2 program before after →
        program.preorder.length = entry.2.preorder.length) :
    (programs.flatMap Program.preorder).length =
      (places.flatMap fun entry => entry.2.preorder).length := by
  induction below with
  | nil given => rfl
  | cons place run _ ih =>
      obtain ⟨first, others⟩ := List.forall_mem_cons.mp each
      rw [List.flatMap_cons, List.flatMap_cons, List.length_append,
        List.length_append, ih others, length_preorder_storedAt,
        first (names_of_named run)]

/-- There is one node for each item and block of an outline. -/
theorem Names.length_preorder {derived : NodeId} {item : Item}
    {program : Program (Label Float32)} {before after : List String}
    (names : Names derived item program before after) :
    program.preorder.length = item.preorder.length := by
  induction item using Program.childrenInduction generalizing derived program
    before after with
  | step item ih =>
    obtain ⟨between, -, below⟩ := names.below
    have counted := below.length_preorder fun entry entryIn =>
      ih entry.2 (mem_children_of_zip entryIn)
    rw [Program.preorder_eq, Program.preorder_eq item, List.length_cons,
      List.length_cons, counted, flatMap_zip_children]

/-- From its root the tree of an outline reads as the block around the items, and no
node is stored that does not belong to them. -/
theorem readsAs_ofProgram {source : String} {members : List Item}
    {program : Program (Label Float32)}
    (isNamed : Outline.program source members = .ok program) :
    ∃ root, (Tree.ofProgram program).root = some root ∧
      (Tree.ofProgram program).ReadsAs "module" (blockOf members) root ∧
      (Tree.ofProgram program).size = (blockOf members).preorder.length ∧
      ∀ handle < (Tree.ofProgram program).size,
        (Tree.ofProgram program).Reaches handle := by
  obtain ⟨given, run⟩ := of_program isNamed
  obtain ⟨located, rfl, contains⟩ := Tree.exists_ofProgram program
  refine ⟨located.handle, contains.root,
    readsBack _ contains.holds .body rfl run, ?_, fun _ => contains.reaches⟩
  have counted := congrArg List.length contains.handles
  rw [List.length_map, located.postorder_perm_preorder.length_eq, List.length_range]
    at counted
  rw [← counted, ← (names_of_named run).length_preorder, Program.written,
    Program.preorder_map, List.length_map]

/-- A text with all constructs, one item and the block of one arm named. -/
def allConstructs : String :=
  "service \"s\" \x7b type \"t\"; \x7d if \"a\" @x \x7b return; \x7d else \x7b \x7d " ++
    "match \"m\" \x7b case \"p\" @y \x7b expr \"e\"; \x7d \x7d while \"w\" \x7b \x7d"

theorem readsAs_ofProgram_allConstructs : ∃ members program root,
    readItems allConstructs = .ok members ∧
      Outline.program allConstructs members = .ok program ∧
        (Tree.ofProgram program).ReadsAs "module" (blockOf members) root ∧
          (Tree.ofProgram program).size = 13 := by
  have readable : (readItems allConstructs).toOption.map (fun members =>
      ((Outline.program allConstructs members).isOk,
        (blockOf members).preorder.length)) = some (true, 13) := by
    decide +kernel
  obtain ⟨members, read, isSeen⟩ := exists_of_toOption readable
  obtain ⟨isOk, counted⟩ := Prod.mk.inj isSeen
  obtain ⟨program, isNamed⟩ := exists_of_isOk isOk
  obtain ⟨root, -, reads, sized, -⟩ := readsAs_ofProgram isNamed
  exact ⟨members, program, root, read, isNamed, reads, sized.trans counted⟩

end Outline

end Flowchart
