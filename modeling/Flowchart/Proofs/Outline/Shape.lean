import Flowchart.Outline.Naming
import Flowchart.Proofs.Outline.Completeness
import Flowchart.Proofs.Program.Structure
import Flowchart.Proofs.Results

/-!
# What items look like

The grammar says of every node of an outline which characters its name has, that
its size is finite, and where bodies hang.  Bodies are blocks, and only a block or a decision stands
after `else`; so at most two nodes lie on the way into each further body.
-/

namespace Flowchart

namespace Outline

/-! ## Single nodes -/

/-- What hangs where in a node: bodies are blocks, and a decision stands only
after `else`. -/
def HangsWell : Item → Prop
  | .decision _ consequent alternative => consequent.tag = .block ∧
      ∀ after ∈ alternative, after.tag = .block ∨ after.tag = .decision
  | .selection _ arms => ∀ arm ∈ arms, arm.2.tag = .block
  | .loop _ _ body | .container _ _ body => body.tag = .block
  | _ => True

/-- What the grammar says of a single node. -/
structure IsRegular (item : Item) : Prop where
  name : ∀ name, item.label.name = some name →
    ∀ c ∈ name.text.toList, isNameChar c = true
  hint : ∀ size, item.label.hint = some size →
    size.width.isFinite = true ∧ size.height.isFinite = true
  hangsWell : HangsWell item

/-- Items in which every node is as the grammar says. -/
def AreRegular (items : List Item) : Prop :=
  ∀ node ∈ items.flatMap Program.preorder, IsRegular node

theorem areRegular_nil : AreRegular [] := by simp [AreRegular]

theorem areRegular_cons {item : Item} {items : List Item} :
    AreRegular (item :: items) ↔ AreRegular [item] ∧ AreRegular items := by
  simp only [AreRegular, List.flatMap_cons, List.flatMap_nil, List.append_nil,
    List.forall_mem_append]

theorem areRegular_singleton {item : Item} :
    AreRegular [item] ↔ IsRegular item ∧ AreRegular item.children := by
  simp only [AreRegular, List.flatMap_singleton, Program.preorder_eq item,
    List.forall_mem_cons]

theorem AreRegular.of_mem {items : List Item} {item : Item}
    (regular : AreRegular items) (itemIn : item ∈ items) : AreRegular [item] := by
  intro node nodeIn
  rw [List.flatMap_singleton] at nodeIn
  exact regular node (List.mem_flatMap.mpr ⟨item, itemIn, nodeIn⟩)

/-! ## Whole outlines -/

/-- The items that a phrase is made of. -/
def Phrase.tops : Phrase → List Item
  | .items members | .body members => members
  | .item program | .decision program | .alternative program => [program]
  | .elsePart other => other.toList
  | .arms bodies => bodies.map Prod.snd

theorem NamePart.isNameChar {name : Option Name} {input rest : List Char}
    (part : NamePart name input rest) :
    ∀ given, name = some given → ∀ c ∈ given.text.toList, isNameChar c = true := by
  cases part with
  | nothing => simp
  | name _ isRun =>
      rintro _ ⟨⟩
      simpa using isRun.all

theorem Dimensions.isFinite {dimensions : List (Axis × Float32)}
    {input rest : List Char} (areWritten : Dimensions dimensions input rest) :
    ∀ dimension ∈ dimensions, dimension.2.isFinite = true := by
  have each : ∀ {dimension input rest}, Dimension dimension input rest →
      dimension.2.isFinite = true := by
    intro dimension input rest isWritten
    obtain ⟨-, -, measure⟩ := isWritten
    cases measure with
    | number _ _ _ finite _ => exact finite
  induction areWritten with
  | single first => exact List.forall_mem_singleton.mpr (each first)
  | more first _ _ ih => exact List.forall_mem_cons.mpr ⟨each first, ih⟩

theorem isFinite_sizeOf {dimensions : List (Axis × Float32)}
    (finite : ∀ dimension ∈ dimensions, dimension.2.isFinite = true) :
    (sizeOf dimensions).width.isFinite = true ∧
      (sizeOf dimensions).height.isFinite = true := by
  have start : (Scalar.zero : Float32).isFinite = true := rfl
  unfold sizeOf
  generalize isSize : (⟨Scalar.zero, Scalar.zero⟩ : Size Float32) = size
  have isFinite : size.width.isFinite = true ∧ size.height.isFinite = true :=
    isSize ▸ ⟨start, start⟩
  clear isSize
  induction dimensions generalizing size with
  | nil => exact isFinite
  | cons dimension others ih =>
      obtain ⟨first, rest⟩ := List.forall_mem_cons.mp finite
      obtain ⟨along, value⟩ := dimension
      rw [List.foldl_cons]
      apply ih rest
      cases along with
      | width => exact ⟨first, isFinite.2⟩
      | height => exact ⟨isFinite.1, first⟩

theorem SizePart.isFinite {hint : Option (Size Float32)} {input rest : List Char}
    (part : SizePart hint input rest) : ∀ size, hint = some size →
      size.width.isFinite = true ∧ size.height.isFinite = true := by
  cases part with
  | nothing => simp
  | size _ dimensions _ =>
      rintro _ ⟨⟩
      exact isFinite_sizeOf dimensions.isFinite

theorem isRegular_ofText {text : String} {given : Attributes}
    {input rest : List Char} (isGiven : Given given input rest) {item : Item}
    (isLabel : item.label = .ofText text given) (hangsWell : HangsWell item) :
    IsRegular item := by
  cases isGiven with
  | both namePart sizePart =>
      refine ⟨?_, ?_, hangsWell⟩
      · rw [isLabel]
        exact namePart.isNameChar
      · rw [isLabel]
        exact sizePart.isFinite

theorem areRegular_blockOf {members : List Item} :
    AreRegular [blockOf members] ↔ AreRegular members := by
  have unnamed : IsRegular (blockOf members) :=
    ⟨by simp [blockOf, Written.nothing, Program.label],
      by simp [blockOf, Written.nothing, Program.label], trivial⟩
  rw [areRegular_singleton]
  exact and_iff_right unnamed

theorem Derives.tag_alternative {alternative : Item} {input rest : List Char}
    (isAlternative : Derives (.alternative alternative) input rest) :
    alternative.tag = .block ∨ alternative.tag = .decision := by
  cases isAlternative with
  | elseDecision isDecision => exact .inr isDecision.tag_decision
  | elseBlock => exact .inl rfl

theorem Derives.tag_arms {arms : List (String × Item)} {input rest : List Char}
    (areArms : Derives (.arms arms) input rest) :
    ∀ arm ∈ arms, arm.2.tag = .block := by
  generalize isPhrase : Phrase.arms arms = phrase at areArms
  induction areArms generalizing arms with
  | noArms input =>
      obtain rfl := Phrase.arms.inj isPhrase
      simp
  | arms _ _ _ _ _ _ ih =>
      obtain rfl := Phrase.arms.inj isPhrase
      exact List.forall_mem_cons.mpr ⟨rfl, ih rfl⟩
  | _ => cases isPhrase

theorem Derives.areRegular {phrase : Phrase} {input rest : List Char}
    (derives : Derives phrase input rest) : AreRegular phrase.tops := by
  induction derives with
  | noItems | noElse | noArms => exact areRegular_nil
  | items _ _ isItem areItems => exact areRegular_cons.mpr ⟨isItem, areItems⟩
  | statement _ _ isGiven | result _ _ isGiven | emptyResult _ isGiven
  | typeDefinition _ _ isGiven =>
      exact areRegular_singleton.mpr
        ⟨isRegular_ofText isGiven rfl trivial, areRegular_nil⟩
  | decisionItem _ ih | elseDecision _ ih | body _ _ _ ih => exact ih
  | elsePart _ _ ih => exact ih
  | selection _ _ isGiven _ areArms _ ih =>
      exact areRegular_singleton.mpr
        ⟨isRegular_ofText isGiven rfl areArms.tag_arms, ih⟩
  | loop _ _ isGiven _ ih | container _ _ isGiven _ ih =>
      exact areRegular_singleton.mpr
        ⟨isRegular_ofText isGiven rfl rfl, areRegular_blockOf.mpr ih⟩
  | block _ isGiven _ ih =>
      exact areRegular_singleton.mpr ⟨isRegular_ofText isGiven rfl trivial, ih⟩
  | bareBlock _ ih => exact areRegular_blockOf.mpr ih
  | elseBlock isGiven _ ih =>
      exact areRegular_singleton.mpr ⟨isRegular_ofText isGiven rfl trivial, ih⟩
  | decision _ _ isGiven _ elsePart bodyRegular elseRegular =>
      refine areRegular_singleton.mpr
        ⟨isRegular_ofText isGiven rfl ⟨rfl, ?_⟩, ?_⟩
      · rintro after ⟨⟩
        cases elsePart with
        | elsePart _ isAlternative => exact isAlternative.tag_alternative
      · exact areRegular_cons.mpr
          ⟨areRegular_blockOf.mpr bodyRegular, elseRegular⟩
  | arms _ _ isGiven _ _ bodyRegular armsRegular =>
      refine areRegular_cons.mpr ⟨?_, armsRegular⟩
      exact areRegular_singleton.mpr
        ⟨isRegular_ofText isGiven rfl trivial, bodyRegular⟩

/-! ## Depth -/

theorem nesting_le_of_member {members : List Item} {member : Item}
    (memberIn : member ∈ members) :
    nesting member ≤ nestingOfMembers members := by
  induction members with
  | nil => cases memberIn
  | cons first rest ih =>
      rw [nestingOfMembers]
      rcases List.mem_cons.mp memberIn with rfl | inRest
      · exact Nat.le_max_left _ _
      · exact (ih inRest).trans (Nat.le_max_right _ _)

theorem nesting_le_of_arm {arms : List (String × Item)} {arm : String × Item}
    (armIn : arm ∈ arms) : nesting arm.2 ≤ nestingOfArms arms := by
  induction arms with
  | nil => cases armIn
  | cons first rest ih =>
      rw [nestingOfArms]
      rcases List.mem_cons.mp armIn with rfl | inRest
      · exact Nat.le_max_left _ _
      · exact (ih inRest).trans (Nat.le_max_right _ _)

theorem nesting_pos_of_block {item : Item} (isBlock : item.tag = .block) :
    0 < nesting item := by
  cases item with
  | block label members =>
      rw [nesting]
      exact Nat.succ_pos _
  | _ => cases isBlock

theorem isShallow_of_below {item : Item} {depth : Nat}
    (below : ∀ child ∈ item.children,
      0 < depth ∧ child.IsShallow (2 * depth - 1)) :
    item.IsShallow (2 * depth) := by
  cases depth with
  | zero =>
      refine Program.isShallow_of_leaf (List.eq_nil_iff_forall_not_mem.mpr ?_) _
      exact fun child childIn => Nat.lt_irrefl 0 (below child childIn).1
  | succ depth =>
      exact fun child childIn => (below child childIn).2

/-- Each level of bodies brings two levels of nodes at most: the construct and
its body.  A block itself needs one of them only, which is why it may be the
body of another construct. -/
theorem isShallow_of_regular {item : Item} (regular : AreRegular [item]) :
    item.IsShallow (2 * nesting item) ∧
      (item.tag = .block → item.IsShallow (2 * nesting item - 1)) := by
  induction item using Program.induction with
  | statement label kind | result label | typeDefinition label =>
      exact ⟨Program.isShallow_of_leaf rfl _, fun isBlock => by cases isBlock⟩
  | block label members ih =>
      have shallow : (Program.block label members).IsShallow
          (2 * nestingOfMembers members + 1) := by
        intro member memberIn
        have memberRegular := (areRegular_singleton.mp regular).2.of_mem memberIn
        have nestingLe : nesting member ≤ nestingOfMembers members :=
          nesting_le_of_member memberIn
        exact (ih member memberIn memberRegular).1.mono (by omega)
      rw [nesting]
      exact ⟨shallow.mono (by omega), fun _ => shallow⟩
  | decision label consequent ih =>
      obtain ⟨⟨-, -, isBlock, -⟩, childRegular⟩ := areRegular_singleton.mp regular
      rw [nesting]
      refine ⟨isShallow_of_below ?_, fun isBlock => by cases isBlock⟩
      intro body bodyIn
      obtain rfl := List.mem_singleton.mp bodyIn
      exact ⟨nesting_pos_of_block isBlock, (ih childRegular).2 isBlock⟩
  | choice label consequent alternative consequentShallow alternativeShallow =>
      obtain ⟨⟨-, -, isBlock, follows⟩, childRegular⟩ :=
        areRegular_singleton.mp regular
      obtain ⟨consequentRegular, alternativeRegular⟩ :=
        areRegular_cons.mp childRegular
      have consequentPos := nesting_pos_of_block isBlock
      rw [nesting_decision, Phrase.nesting]
      refine ⟨isShallow_of_below ?_, fun isBlock => by cases isBlock⟩
      refine List.forall_mem_cons.mpr ⟨⟨by omega, ?_⟩,
        List.forall_mem_singleton.mpr ?_⟩
      · exact ((consequentShallow consequentRegular).2 isBlock).mono (by omega)
      · obtain ⟨alternativeLe, blockLe⟩ := alternativeShallow alternativeRegular
        -- A decision after `else` takes no level for a body of its own, but it
        -- is counted as one level deeper.
        rcases follows alternative rfl with isBlock | isDecision
        · have alternativePos := nesting_pos_of_block isBlock
          rw [nestingAfterElse, if_neg (by simp [isBlock])]
          exact ⟨by omega, (blockLe isBlock).mono (by omega)⟩
        · rw [nestingAfterElse, if_pos isDecision]
          exact ⟨by omega, alternativeLe.mono (by omega)⟩
  | selection label arms ih =>
      obtain ⟨⟨-, -, areBlocks⟩, childRegular⟩ := areRegular_singleton.mp regular
      rw [nesting]
      refine ⟨isShallow_of_below ?_, fun isBlock => by cases isBlock⟩
      intro body bodyIn
      obtain ⟨arm, armIn, rfl⟩ := List.mem_map.mp bodyIn
      have isBlock := areBlocks arm armIn
      have armPos := nesting_pos_of_block isBlock
      have armLe := nesting_le_of_arm armIn
      have shallow := (ih arm armIn (childRegular.of_mem bodyIn)).2 isBlock
      exact ⟨by omega, shallow.mono (by omega)⟩
  | loop label kind body ih | container label kind body ih =>
      obtain ⟨⟨-, -, isBlock⟩, childRegular⟩ := areRegular_singleton.mp regular
      rw [nesting]
      refine ⟨isShallow_of_below ?_, fun isBlock => by cases isBlock⟩
      intro child childIn
      obtain rfl := List.mem_singleton.mp childIn
      exact ⟨nesting_pos_of_block isBlock, (ih childRegular).2 isBlock⟩

/-! ## Accepted texts -/

theorem isOutline_of_readItems {source : String} {members : List Item}
    (read : readItems source = .ok members) :
    IsOutline source.toList members ∧ nestingOfMembers members ≤ nestingLimit := by
  simp only [readItems] at read
  cases outlined : outline source.toList with
  | done found rest =>
      rw [outlined] at read
      obtain rfl := Except.ok.inj read
      exact (outline_eq_done.mp outlined).2
  | refused place expected | failed place expected =>
      rw [outlined] at read
      cases read

theorem of_program {source : String} {members : List Item}
    {program : Program (Label Float32)}
    (isNamed : Outline.program source members = .ok program) :
    ∃ given, (named rootId (blockOf members)).run [] = .ok (program, given) := by
  simp only [Outline.program] at isNamed
  cases run : (named rootId (blockOf members)).run [] with
  | ok result =>
      obtain ⟨found, given⟩ := result
      rw [run] at isNamed
      obtain rfl := Except.ok.inj isNamed
      exact ⟨given, rfl⟩
  | error name =>
      rw [run] at isNamed
      cases isNamed

/-- An accepted text is read into items, which are named and then stored. -/
theorem of_parse {source : String} {tree : Tree Float32}
    (accepted : parse source = .ok tree) :
    ∃ members program given, readItems source = .ok members ∧
      (named rootId (blockOf members)).run [] = .ok (program, given) ∧
        tree = Tree.ofProgram program := by
  obtain ⟨members, read, accepted⟩ := bind_eq_ok.mp accepted
  obtain ⟨program, isNamed, same⟩ := bind_eq_ok.mp accepted
  obtain ⟨given, run⟩ := of_program isNamed
  exact ⟨members, program, given, read, run, (Except.ok.inj same).symm⟩

/-- The block around the items of an accepted text. -/
theorem areRegular_of_readItems {source : String} {members : List Item}
    (read : readItems source = .ok members) : AreRegular [blockOf members] := by
  obtain ⟨⟨rest, areItems, -⟩, -⟩ := isOutline_of_readItems read
  exact areRegular_blockOf.mpr areItems.areRegular

/-- Nesting counts bodies, and the block around the text is not one of them. -/
theorem isShallow_of_readItems {source : String} {members : List Item}
    (read : readItems source = .ok members) :
    (blockOf members).IsShallow (2 * nestingLimit + 1) := by
  have shallow := (isShallow_of_regular (areRegular_of_readItems read)).2 rfl
  have nestingLe := (isOutline_of_readItems read).2
  rw [nesting_blockOf] at shallow
  exact shallow.mono (by omega)

end Outline

end Flowchart
