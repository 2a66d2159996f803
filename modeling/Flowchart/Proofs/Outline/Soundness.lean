import Flowchart.Proofs.Outline.Tokens

/-!
# What is read is derived

Whatever items are read from a text, the grammar derives them from it, and they
nest no deeper than the bodies that were allowed.
-/

namespace Flowchart.Outline

open Reader

/-- A phrase that nests no deeper than given is written at the front of a
text. -/
def DerivesWithin (levels : Nat) (phrase : Phrase) (input rest : List Char) :
    Prop :=
  Derives phrase input rest ∧ phrase.nesting ≤ levels

theorem nesting_decision (label : Written) (consequent : Item)
    (alternative : Option Item) :
    nesting (.decision label consequent alternative) =
      max (nesting consequent) (Phrase.elsePart alternative).nesting := by
  cases alternative with
  | none => simp [nesting, Phrase.nesting]
  | some alternative => rw [nesting]; rfl

theorem nesting_blockOf (members : List Item) :
    nesting (blockOf members) = nestingOfMembers members + 1 := by
  rw [blockOf, nesting]

theorem Derives.body_of_same {members : List Item} {input other rest : List Char}
    (isBody : Derives (.body members) input rest)
    (same : skipBlanks false input = skipBlanks false other) :
    Derives (.body members) other rest := by
  cases isBody with
  | body opens areItems closes =>
      exact .body (opens.of_same (by decide) same) areItems closes

theorem Derives.tag_decision {decision : Item} {input rest : List Char}
    (isDecision : Derives (.decision decision) input rest) :
    decision.tag = .decision := by
  cases isDecision
  rfl

/-! ## Items over given bodies -/

/-- What lies one level deeper is read as the grammar says. -/
structure Nested.Sound (nested : Nested) (levels : Nat) : Prop where
  body : ∀ {input rest : List Char} {members : List Item},
    nested.body input = .done members rest →
      DerivesWithin levels (.body members) input rest
  afterElse : ∀ {input rest : List Char} {alternative : Item},
    nested.afterElse input = .done alternative rest →
      DerivesWithin levels (.alternative alternative) input rest

theorem of_statementKeyword {kind : StatementKind} {input rest : List Char}
    (read : afterBlanks statementKeyword input = .done kind rest) :
    Word kind.word input rest := by
  have ofKind : ∀ {word : String} {meant : StatementKind}, isWord word = true →
      afterBlanks (keyword word >>= fun _ => pure meant) input = .done kind rest →
        Word word input rest ∧ meant = kind := by
    intro word meant isWord read
    obtain ⟨a, isWritten, same⟩ := (afterBlanks_keyword_bind isWord).mp read
    cases same
    exact ⟨isWritten, rfl⟩
  rcases of_otherwise_eq_done read with read | read
  · obtain ⟨isWritten, rfl⟩ := ofKind (by decide) read
    exact isWritten
  rcases of_otherwise_eq_done read with read | read
  · obtain ⟨isWritten, rfl⟩ := ofKind (by decide) read
    exact isWritten
  rcases of_otherwise_eq_done read with read | read
  · obtain ⟨isWritten, rfl⟩ := ofKind (by decide) read
    exact isWritten
  · obtain ⟨isWritten, rfl⟩ := ofKind (by decide) read
    exact isWritten

section Sound

variable {nested : Nested} {levels : Nat} {input rest : List Char} {found : Item}

theorem of_statementItem
    (read : afterBlanks statementItem input = .done found rest) :
    DerivesWithin levels (.item found) input rest := by
  have split : ∃ kind a, afterBlanks statementKeyword input = .done kind a ∧ _ :=
    bind_eq_done.mp read
  obtain ⟨kind, a, isKind, read⟩ := split
  simp only [required_eq_done, bind_eq_done, pure_apply, Outcome.done.injEq,
    afterBlanks_quotedText, afterBlanks_semicolon] at read
  obtain ⟨text, b, quotation, given, c, isGiven, _, d, isMark, rfl, rfl⟩ := read
  refine ⟨.statement (of_statementKeyword isKind) quotation (of_attributes isGiven)
    isMark, ?_⟩
  simp [Phrase.nesting, nesting]

theorem of_resultItem (read : afterBlanks resultItem input = .done found rest) :
    DerivesWithin levels (.item found) input rest := by
  obtain ⟨a, isWord, read⟩ :=
    (afterBlanks_keyword_bind (by decide)).mp read
  simp only [required_eq_done, bind_eq_done, pure_apply, Outcome.done.injEq,
    afterBlanks_semicolon] at read
  obtain ⟨text, b, readText, given, c, isGiven, _, d, isMark, rfl, rfl⟩ := read
  have isGiven := of_attributes isGiven
  refine ⟨?_, by simp [Phrase.nesting, nesting]⟩
  rcases of_optional_eq_done readText with ⟨text, rfl, isText⟩ | ⟨rfl, rfl⟩
  · exact .result isWord (afterBlanks_stringLiteral.mp isText) isGiven isMark
  · exact .emptyResult isWord isGiven isMark

theorem of_typeItem (read : afterBlanks typeItem input = .done found rest) :
    DerivesWithin levels (.item found) input rest := by
  obtain ⟨a, isWord, read⟩ :=
    (afterBlanks_keyword_bind (by decide)).mp read
  simp only [required_eq_done, bind_eq_done, pure_apply, Outcome.done.injEq,
    afterBlanks_quotedText, afterBlanks_semicolon] at read
  obtain ⟨text, b, quotation, given, c, isGiven, _, d, isMark, rfl, rfl⟩ := read
  refine ⟨.typeDefinition isWord quotation (of_attributes isGiven) isMark, ?_⟩
  simp [Phrase.nesting, nesting]

variable (sound : nested.Sound levels)

include sound

theorem of_decisionItem
    (read : afterBlanks (decisionItem nested) input = .done found rest) :
    DerivesWithin levels (.decision found) input rest := by
  obtain ⟨a, isWord, read⟩ :=
    (afterBlanks_keyword_bind (by decide)).mp read
  simp only [required_eq_done, bind_eq_done, pure_apply, Outcome.done.injEq,
    afterBlanks_quotedText] at read
  obtain ⟨_, b, ⟨text, c, quotation, given, d, isGiven, members, e, isBody, rfl, rfl⟩,
    alternative, f, isElse, rfl, rfl⟩ := read
  obtain ⟨isBody, bodyNesting⟩ := sound.body isBody
  have elsePart : DerivesWithin levels (.elsePart alternative) e f := by
    rcases of_optional_eq_done isElse with ⟨program, rfl, readElse⟩ | ⟨rfl, rfl⟩
    · obtain ⟨g, isElseWord, readElse⟩ :=
        (afterBlanks_keyword_bind (by decide)).mp readElse
      obtain ⟨isAlternative, nestingLe⟩ :=
        sound.afterElse (required_eq_done.mp readElse)
      exact ⟨.elsePart isElseWord isAlternative, nestingLe⟩
    · exact ⟨.noElse _, Nat.zero_le _⟩
  refine ⟨.decision isWord quotation (of_attributes isGiven) isBody elsePart.1, ?_⟩
  rw [Phrase.nesting, nesting_decision, nesting_blockOf]
  exact max_le bodyNesting elsePart.2

theorem of_headedItem {word : String} (isWord : isWord word = true) {what : Quoted}
    {build : Written → Item → Item}
    (read : afterBlanks (headedItem nested word what build) input =
      .done found rest) :
    ∃ text given members a b c, Word word input a ∧ Quotation text a b ∧
      Given given b c ∧ DerivesWithin levels (.body members) c rest ∧
        found = build (.ofText text given) (blockOf members) := by
  obtain ⟨a, isWritten, read⟩ := (afterBlanks_keyword_bind isWord).mp read
  simp only [required_eq_done, bind_eq_done, pure_apply, Outcome.done.injEq,
    afterBlanks_quotedText] at read
  obtain ⟨text, b, quotation, given, c, isGiven, members, d, isBody, rfl, rfl⟩ := read
  exact ⟨text, given, members, a, b, c, isWritten,
    quotation, of_attributes isGiven, sound.body isBody, rfl⟩

theorem of_loopItem (kind : LoopKind) {what : Quoted}
    (read : afterBlanks (headedItem nested kind.word what (.loop · kind)) input =
      .done found rest) : DerivesWithin levels (.item found) input rest := by
  obtain ⟨text, given, members, a, b, c, isWord, quotation, isGiven,
    ⟨isBody, bodyNesting⟩, rfl⟩ := of_headedItem sound (isWord_loop kind) read
  refine ⟨.loop isWord quotation isGiven isBody, ?_⟩
  rw [Phrase.nesting, nesting, nesting_blockOf]
  exact bodyNesting

theorem of_containerItem (kind : ContainerKind) {what : Quoted}
    (read : afterBlanks (headedItem nested kind.word what (.container · kind))
      input = .done found rest) :
    DerivesWithin levels (.item found) input rest := by
  obtain ⟨text, given, members, a, b, c, isWord, quotation, isGiven,
    ⟨isBody, bodyNesting⟩, rfl⟩ := of_headedItem sound (isWord_container kind) read
  refine ⟨.container isWord quotation isGiven isBody, ?_⟩
  rw [Phrase.nesting, nesting, nesting_blockOf]
  exact bodyNesting

theorem of_arms {arms : List (String × Item)}
    (read : repeated (afterBlanks (armItem nested)) input = .done arms rest) :
    DerivesWithin levels (.arms arms) input rest := by
  refine repeated_induction
    (motive := fun arms input rest => DerivesWithin levels (.arms arms) input rest)
    ?_ ?_ read
  · exact fun input => ⟨.noArms input, Nat.zero_le _⟩
  · intro arm arms input middle rest readArm ⟨further, furtherNesting⟩
    obtain ⟨a, isWord, readArm⟩ :=
      (afterBlanks_keyword_bind (by decide)).mp readArm
    simp only [required_eq_done, bind_eq_done, pure_apply, Outcome.done.injEq,
      afterBlanks_quotedText] at readArm
    obtain ⟨pattern, b, quotation, given, c, isGiven, members, d, isBody, rfl,
      rfl⟩ := readArm
    obtain ⟨isBody, bodyNesting⟩ := sound.body isBody
    refine ⟨.arms isWord quotation (of_attributes isGiven) isBody further, ?_⟩
    rw [Phrase.nesting, nestingOfArms, nesting]
    exact max_le bodyNesting furtherNesting

theorem of_selectionItem
    (read : afterBlanks (selectionItem nested) input = .done found rest) :
    DerivesWithin levels (.item found) input rest := by
  obtain ⟨a, isWord, read⟩ :=
    (afterBlanks_keyword_bind (by decide)).mp read
  simp only [required_eq_done, expecting_eq_done, bind_eq_done, pure_apply,
    Outcome.done.injEq, afterBlanks_quotedText,
    afterBlanks_char '\x7b' (by decide)] at read
  obtain ⟨_, b, ⟨text, c, quotation, given, d, isGiven, rfl, rfl⟩, _, e, opens, arms, f,
    rest, rfl, rfl⟩ := read
  obtain ⟨arms, g, readArms, rest⟩ := bind_eq_done.mp rest
  simp only [expecting_eq_done, bind_eq_done, pure_apply, Outcome.done.injEq,
    afterBlanks_char '\x7d' (by decide)] at rest
  obtain ⟨_, h, closes, rfl, rfl⟩ := rest
  obtain ⟨isArms, armsNesting⟩ := of_arms sound readArms
  refine ⟨.selection isWord quotation (of_attributes isGiven) opens isArms closes, ?_⟩
  rw [Phrase.nesting, nesting]
  exact armsNesting

theorem of_blockItem
    (read : afterBlanks (blockItem nested) input = .done found rest) :
    DerivesWithin levels (.item found) input rest := by
  rcases of_otherwise_eq_done read with read | read
  · obtain ⟨a, isWord, read⟩ :=
      (afterBlanks_keyword_bind (by decide)).mp read
    simp only [required_eq_done, bind_eq_done, pure_apply,
      Outcome.done.injEq] at read
    obtain ⟨given, b, isGiven, members, c, isBody, rfl, rfl⟩ := read
    obtain ⟨isBody, bodyNesting⟩ := sound.body isBody
    refine ⟨.block isWord (of_attributes isGiven) isBody, ?_⟩
    rw [Phrase.nesting, nesting]
    exact bodyNesting
  · have split : ∃ members a, nested.body (skipBlanks false input) =
        .done members a ∧ _ := bind_eq_done.mp read
    obtain ⟨members, a, isBody, same⟩ := split
    cases same
    obtain ⟨isBody, bodyNesting⟩ := sound.body isBody
    refine ⟨.bareBlock (isBody.body_of_same
      (blanks_skipBlanks input).skipBlanks_eq.symm), ?_⟩
    rw [Phrase.nesting, nesting_blockOf]
    exact bodyNesting

theorem of_item (read : afterBlanks (item nested) input = .done found rest) :
    DerivesWithin levels (.item found) input rest := by
  rcases of_otherwise_eq_done read with read | read
  · exact of_statementItem read
  rcases of_otherwise_eq_done read with read | read
  · exact of_resultItem read
  rcases of_otherwise_eq_done read with read | read
  · obtain ⟨isDecision, nestingLe⟩ := of_decisionItem sound read
    exact ⟨.decisionItem isDecision, nestingLe⟩
  rcases of_otherwise_eq_done read with read | read
  · exact of_selectionItem sound read
  rcases of_otherwise_eq_done read with read | read
  · exact of_loopItem sound .whileHolds read
  rcases of_otherwise_eq_done read with read | read
  · exact of_loopItem sound .forEach read
  rcases of_otherwise_eq_done read with read | read
  · exact of_containerItem sound .function read
  rcases of_otherwise_eq_done read with read | read
  · exact of_containerItem sound .service read
  rcases of_otherwise_eq_done read with read | read
  · exact of_typeItem read
  · exact of_blockItem sound read

theorem of_items {members : List Item}
    (read : items nested input = .done members rest) :
    DerivesWithin levels (.items members) input rest := by
  refine repeated_induction
    (motive := fun members input rest =>
      DerivesWithin levels (.items members) input rest) ?_ ?_ read
  · exact fun input => ⟨.noItems input, Nat.zero_le _⟩
  · intro found members input middle rest readItem ⟨further, furtherNesting⟩
    obtain ⟨isItem, itemNesting⟩ := of_item sound readItem
    refine ⟨.items isItem further, ?_⟩
    rw [Phrase.nesting, nestingOfMembers]
    exact max_le itemNesting furtherNesting

/-- A body is one level deeper than its items. -/
theorem of_bodyRest {members : List Item} {start : List Char}
    (opens : Mark '\x7b' start input)
    (read : bodyRest nested input = .done members rest) :
    DerivesWithin (levels + 1) (.body members) start rest := by
  obtain ⟨members, a, readItems, read⟩ := bind_eq_done.mp (required_eq_done.mp read)
  simp only [expecting_eq_done, bind_eq_done, pure_apply, Outcome.done.injEq,
    afterBlanks_char '\x7d' (by decide)] at read
  obtain ⟨_, b, closes, rfl, rfl⟩ := read
  obtain ⟨areItems, itemsNesting⟩ := of_items sound readItems
  exact ⟨.body opens areItems closes, Nat.succ_le_succ itemsNesting⟩

theorem of_elseItem (read : elseItem nested input = .done found rest) :
    DerivesWithin (levels + 1) (.alternative found) input rest := by
  rcases of_otherwise_eq_done (expecting_eq_done.mp read) with read | read
  · obtain ⟨isDecision, nestingLe⟩ := of_decisionItem sound read
    refine ⟨.elseDecision isDecision, ?_⟩
    rw [Phrase.nesting, nestingAfterElse, if_pos isDecision.tag_decision]
    exact Nat.succ_le_succ nestingLe
  · have split : ∃ given a, attributes (skipBlanks false input) = .done given a ∧
        _ := bind_eq_done.mp read
    obtain ⟨given, a, readGiven, read⟩ := split
    simp only [bind_eq_done, pure_apply, Outcome.done.injEq, openingBrace,
      afterBlanks_char '\x7b' (by decide)] at read
    obtain ⟨_, b, opens, members, c, readBody, rfl, rfl⟩ := read
    obtain ⟨isBody, bodyNesting⟩ := of_bodyRest sound opens readBody
    obtain ⟨d, isGiven, same⟩ := (of_attributes readGiven).of_same
      (blanks_skipBlanks input).skipBlanks_eq.symm
    exact ⟨.elseBlock isGiven (isBody.body_of_same same), bodyNesting⟩

end Sound

/-! ## Bodies -/

theorem sound_nestedWithin (levels : Nat) :
    (nestedWithin levels).Sound levels := by
  induction levels with
  | zero =>
      constructor
      · intro input rest members read
        obtain ⟨_, a, _, read⟩ := bind_eq_done.mp read
        cases read
      · intro input rest alternative read
        cases read
  | succ levels ih =>
      constructor
      · intro input rest members read
        have split : ∃ result a, expecting .openingBrace openingBrace input =
            .done result a ∧ _ := bind_eq_done.mp read
        obtain ⟨_, a, opens, read⟩ := split
        rw [expecting_eq_done, openingBrace,
          afterBlanks_char '\x7b' (by decide)] at opens
        exact of_bodyRest ih opens read
      · exact of_elseItem ih

end Flowchart.Outline
