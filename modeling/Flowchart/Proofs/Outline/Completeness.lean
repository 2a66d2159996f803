import Flowchart.Proofs.Outline.Soundness

/-!
# What is derived is read

Items that the grammar derives from a text are read from it if they do not nest
too deep.  What follows a part tells that the part is over.
-/

namespace Flowchart.Outline

open Reader

/-! ## What is left of a text -/

theorem Word.length_le {word : String} {input rest : List Char}
    (isWritten : Word word input rest) : rest.length ≤ input.length := by
  have blanksLength := isWritten.1.length_le
  rw [List.length_append] at blanksLength
  omega

attribute [local grind →] Word.length_le Mark.length_lt Quotation.length_lt
  Given.length_le

theorem Derives.length_le {phrase : Phrase} {input rest : List Char}
    (derives : Derives phrase input rest) : rest.length ≤ input.length := by
  induction derives with
  | noItems | noElse | noArms => exact le_refl _
  | items _ _ ihItem ihMembers => exact ihMembers.trans ihItem
  | decisionItem _ ih | bareBlock _ ih | elseDecision _ ih => exact ih
  | _ => grind

theorem Derives.body_opens {members : List Item} {input rest : List Char}
    (isBody : Derives (.body members) input rest) :
    ∃ a, Mark '\x7b' input a := by
  cases isBody with
  | body opens _ _ => exact ⟨_, opens⟩

theorem Derives.decision_starts {found : Item} {input rest : List Char}
    (isDecision : Derives (.decision found) input rest) :
    ∃ a, Word "if" input a ∧ rest.length ≤ a.length := by
  cases isDecision with
  | decision isWord quotation isGiven isBody elsePart =>
      have := isBody.length_le
      have := elsePart.length_le
      exact ⟨_, isWord, by grind⟩

/-- Every item takes something of the text. -/
theorem Derives.item_length_lt {found : Item} {input rest : List Char}
    (isItem : Derives (.item found) input rest) : rest.length < input.length := by
  cases isItem with
  | decisionItem isDecision =>
      obtain ⟨a, isWord, isShorter⟩ := isDecision.decision_starts
      exact isShorter.trans_lt (isWord.length_lt (by decide))
  | bareBlock isBody =>
      cases isBody with
      | body opens areItems closes =>
          have := areItems.length_le
          grind
  | loop isWord quotation isGiven isBody =>
      have := isBody.length_le
      grind
  | container isWord quotation isGiven isBody =>
      have := isBody.length_le
      grind
  | block isWord isGiven isBody =>
      have := isBody.length_le
      have := isWord.length_lt (by decide)
      grind
  | selection isWord quotation isGiven opens isArms closes =>
      have := isArms.length_le
      grind
  | _ => grind

theorem Word.not_else {word : String} {input rest : List Char}
    (isWritten : Word word input rest) (isWord : isWord word = true)
    (differs : word ≠ "else") :
    firstWord (skipBlanks false input) ≠ "else".toList := by
  rw [isWritten.firstWord_eq isWord]
  exact fun same => differs (String.toList_inj.mp same)

/-- No item starts with the word that separates the branches of a decision. -/
theorem Derives.item_starts {found : Item} {input rest : List Char}
    (isItem : Derives (.item found) input rest) :
    firstWord (skipBlanks false input) ≠ "else".toList := by
  cases isItem with
  | @statement kind _ _ _ _ _ _ _ isWord =>
      exact isWord.not_else (isWord_statement kind) (by cases kind <;> decide)
  | @loop kind _ _ _ _ _ _ _ _ isWord =>
      exact isWord.not_else (isWord_loop kind) (by cases kind <;> decide)
  | @container kind _ _ _ _ _ _ _ _ isWord =>
      exact isWord.not_else (isWord_container kind) (by cases kind <;> decide)
  | decisionItem isDecision =>
      obtain ⟨a, isWord, -⟩ := isDecision.decision_starts
      exact isWord.not_else (by decide) (by decide)
  | bareBlock isBody =>
      obtain ⟨a, opens⟩ := isBody.body_opens
      rw [opens.firstWord_eq (by decide) (by decide)]
      decide
  | result isWord | emptyResult isWord | typeDefinition isWord
  | selection isWord | block isWord =>
      exact isWord.not_else (by decide) (by decide)

/-! ## Attributes -/

theorem Given.read_before {given : Attributes} {mark : Char}
    {input middle rest : List Char} (isGiven : Given given input middle)
    (isMark : Mark mark middle rest) (isToken : startsToken mark = true)
    (noName : mark ≠ '@') (noSize : mark ≠ '[') :
    attributes input = .done given middle := by
  apply isGiven.read
  · rw [isMark.ahead isToken]
    simpa using noName
  · rw [isMark.ahead isToken]
    simpa using noSize

/-- Attributes that are given start with a mark of their own. -/
theorem Given.ahead_eq {given : Attributes} {input rest : List Char}
    (isGiven : Given given input rest) :
    ahead input = some '@' ∨ ahead input = some '[' ∨ ahead input = ahead rest := by
  obtain ⟨isName, isHint⟩ := isGiven
  cases isName with
  | name isMark _ => exact .inl (isMark.ahead (by decide))
  | nothing =>
      cases isHint with
      | size opens _ _ => exact .inr (.inl (opens.ahead (by decide)))
      | nothing => exact .inr (.inr rfl)

/-! ## Items over given bodies -/

section Read

variable {nested : Nested} {text : String} {given : Attributes}
  {members : List Item} {input a b c d e rest : List Char}

theorem read_statementKeyword {kind : StatementKind}
    (isWritten : Word kind.word input rest) :
    afterBlanks statementKeyword input = .done kind rest := by
  have isFirst := isWritten.firstWord_eq (isWord_statement kind)
  have isRead : afterBlanks (keyword kind.word >>= fun _ => pure kind) input =
      .done kind rest :=
    (afterBlanks_keyword_bind (isWord_statement kind)).mpr ⟨rest, isWritten, rfl⟩
  have refuses : ∀ {word : String} {other : StatementKind}, isWord word = true →
      kind.word ≠ word → Refuses (keyword word >>= fun _ => pure other)
        (skipBlanks false input) := by
    intro word other isWord differs
    apply Refuses.bind
    apply refuses_keyword isWord
    rw [isFirst]
    exact fun same => differs (String.toList_inj.mp same)
  cases kind with
  | expression => exact otherwise_of_done isRead
  | variableDefinition =>
      rw [afterBlanks_apply, statementKeyword,
        (refuses (by decide) (by decide)).otherwise_eq]
      exact otherwise_of_done isRead
  | assignment =>
      rw [afterBlanks_apply, statementKeyword,
        (refuses (by decide) (by decide)).otherwise_eq,
        (refuses (by decide) (by decide)).otherwise_eq]
      exact otherwise_of_done isRead
  | compoundAssignment =>
      rw [afterBlanks_apply, statementKeyword,
        (refuses (by decide) (by decide)).otherwise_eq,
        (refuses (by decide) (by decide)).otherwise_eq,
        (refuses (by decide) (by decide)).otherwise_eq]
      exact isRead

theorem read_statementItem {kind : StatementKind}
    (isWritten : Word kind.word input a) (quotation : Quotation text a b)
    (isGiven : Given given b c) (ends : Mark ';' c rest) :
    afterBlanks statementItem input =
      .done (.statement (.ofText text given) kind) rest := by
  have readGiven := isGiven.read_before ends (by decide) (by decide) (by decide)
  rw [afterBlanks_apply, statementItem, bind_eq_done]
  refine ⟨kind, a, read_statementKeyword isWritten, ?_⟩
  simp only [required_eq_done, bind_eq_done, pure_apply, Outcome.done.injEq,
    afterBlanks_quotedText, afterBlanks_semicolon]
  exact ⟨text, b, quotation, given, c, readGiven, (), rest, ends, rfl, rfl⟩

theorem read_resultItem (isWritten : Word "return" input a)
    (quotation : Quotation text a b) (isGiven : Given given b c)
    (ends : Mark ';' c rest) :
    afterBlanks resultItem input =
      .done (.result (.ofText text given)) rest := by
  have readGiven := isGiven.read_before ends (by decide) (by decide) (by decide)
  have readText : optional (afterBlanks stringLiteral) a = .done (some text) b :=
    optional_of_done (afterBlanks_stringLiteral.mpr quotation)
  apply (afterBlanks_keyword_bind (by decide)).mpr
  refine ⟨a, isWritten, ?_⟩
  simp only [required_eq_done, bind_eq_done, pure_apply, Outcome.done.injEq,
    afterBlanks_semicolon]
  exact ⟨some text, b, readText, given, c, readGiven, (), rest, ends, rfl, rfl⟩

theorem read_emptyResultItem (isWritten : Word "return" input a)
    (isGiven : Given given a b) (ends : Mark ';' b rest) :
    afterBlanks resultItem input = .done (.result (.ofText "" given)) rest := by
  have readGiven := isGiven.read_before ends (by decide) (by decide) (by decide)
  have noText : optional (afterBlanks stringLiteral) a = .done none a := by
    have noQuote : ahead a ≠ some '"' := by
      rcases isGiven.ahead_eq with isAhead | isAhead | isAhead
      · simp [isAhead]
      · simp [isAhead]
      · simp [isAhead, ends.ahead (by decide)]
    have refuses : Refuses (afterBlanks stringLiteral) a :=
      (refuses_char noQuote).bind
    exact refuses.optional
  apply (afterBlanks_keyword_bind (by decide)).mpr
  refine ⟨a, isWritten, ?_⟩
  simp only [required_eq_done, bind_eq_done, pure_apply, Outcome.done.injEq,
    afterBlanks_semicolon]
  exact ⟨none, a, noText, given, b, readGiven, (), rest, ends, rfl, rfl⟩

theorem read_typeItem (isWritten : Word "type" input a)
    (quotation : Quotation text a b) (isGiven : Given given b c)
    (ends : Mark ';' c rest) :
    afterBlanks typeItem input =
      .done (.typeDefinition (.ofText text given)) rest := by
  have readGiven := isGiven.read_before ends (by decide) (by decide) (by decide)
  apply (afterBlanks_keyword_bind (by decide)).mpr
  refine ⟨a, isWritten, ?_⟩
  simp only [required_eq_done, bind_eq_done, pure_apply, Outcome.done.injEq,
    afterBlanks_quotedText, afterBlanks_semicolon]
  exact ⟨text, b, quotation, given, c, readGiven, (), rest, ends, rfl, rfl⟩

theorem read_decisionItem {alternative : Option Item}
    (isWritten : Word "if" input a) (quotation : Quotation text a b)
    (isGiven : Given given b c) (opens : Mark '\x7b' c e)
    (readBody : nested.body c = .done members d)
    (readElse : optional (do
      afterBlanks (keyword "else")
      required nested.afterElse) d = .done alternative rest) :
    afterBlanks (decisionItem nested) input =
      .done (.decision (.ofText text given) (blockOf members) alternative)
        rest := by
  have readGiven := isGiven.read_before opens (by decide) (by decide) (by decide)
  apply (afterBlanks_keyword_bind (by decide)).mpr
  refine ⟨a, isWritten, ?_⟩
  simp only [required_eq_done, bind_eq_done, pure_apply, Outcome.done.injEq,
    afterBlanks_quotedText]
  exact ⟨_, d, ⟨text, b, quotation, given, c, readGiven, members, d, readBody, rfl,
    rfl⟩, alternative, rest, readElse, rfl, rfl⟩

theorem read_headedItem {word : String} (isWord : isWord word = true) {what : Quoted}
    {build : Written → Item → Item} (isWritten : Word word input a)
    (quotation : Quotation text a b) (isGiven : Given given b c)
    (opens : Mark '\x7b' c e) (readBody : nested.body c = .done members rest) :
    afterBlanks (headedItem nested word what build) input =
      .done (build (.ofText text given) (blockOf members)) rest := by
  have readGiven := isGiven.read_before opens (by decide) (by decide) (by decide)
  apply (afterBlanks_keyword_bind isWord).mpr
  refine ⟨a, isWritten, ?_⟩
  simp only [required_eq_done, bind_eq_done, pure_apply, Outcome.done.injEq,
    afterBlanks_quotedText]
  exact ⟨text, b, quotation, given, c, readGiven, members, rest, readBody, rfl, rfl⟩

theorem read_armItem (isWritten : Word "case" input a)
    (quotation : Quotation text a b) (isGiven : Given given b c)
    (opens : Mark '\x7b' c e) (readBody : nested.body c = .done members rest) :
    afterBlanks (armItem nested) input =
      .done (text, .block (.ofText "" given) members) rest := by
  have readGiven := isGiven.read_before opens (by decide) (by decide) (by decide)
  apply (afterBlanks_keyword_bind (by decide)).mpr
  refine ⟨a, isWritten, ?_⟩
  simp only [required_eq_done, bind_eq_done, pure_apply, Outcome.done.injEq,
    afterBlanks_quotedText]
  exact ⟨text, b, quotation, given, c, readGiven, members, rest, readBody, rfl, rfl⟩

theorem read_selectionItem {arms : List (String × Item)}
    (isWritten : Word "match" input a) (quotation : Quotation text a b)
    (isGiven : Given given b c) (opens : Mark '\x7b' c d)
    (readArms : repeated (afterBlanks (armItem nested)) d = .done arms e)
    (closes : Mark '\x7d' e rest) :
    afterBlanks (selectionItem nested) input =
      .done (.selection (.ofText text given) arms) rest := by
  have readGiven := isGiven.read_before opens (by decide) (by decide) (by decide)
  apply (afterBlanks_keyword_bind (by decide)).mpr
  refine ⟨a, isWritten, ?_⟩
  simp only [required_eq_done, expecting_eq_done, bind_eq_done, pure_apply,
    Outcome.done.injEq, afterBlanks_quotedText,
    afterBlanks_char '\x7b' (by decide)]
  refine ⟨.ofText text given, c, ⟨text, b, quotation, given, c, readGiven, rfl, rfl⟩,
    (), d, opens, arms, rest, ?_, rfl, rfl⟩
  apply bind_eq_done.mpr
  refine ⟨arms, e, readArms, ?_⟩
  simp only [expecting_eq_done, bind_eq_done, pure_apply, Outcome.done.injEq,
    afterBlanks_char '\x7d' (by decide)]
  exact ⟨(), rest, closes, trivial, rfl⟩

theorem read_blockItem (isWritten : Word "block" input a)
    (isGiven : Given given a b) (opens : Mark '\x7b' b e)
    (readBody : nested.body b = .done members rest) :
    afterBlanks (blockItem nested) input =
      .done (.block (.ofText "" given) members) rest := by
  have readGiven := isGiven.read_before opens (by decide) (by decide) (by decide)
  apply otherwise_of_done
  apply (afterBlanks_keyword_bind (by decide)).mpr
  refine ⟨a, isWritten, ?_⟩
  simp only [required_eq_done, bind_eq_done, pure_apply, Outcome.done.injEq]
  exact ⟨given, b, readGiven, members, rest, readBody, rfl, rfl⟩

theorem read_bareBlock (noWord : firstWord (skipBlanks false input) = [])
    (readBody : nested.body (skipBlanks false input) = .done members rest) :
    afterBlanks (blockItem nested) input = .done (blockOf members) rest := by
  have refuses : Refuses (keyword "block") (skipBlanks false input) := by
    apply refuses_keyword (by decide)
    rw [noWord]
    decide
  rw [afterBlanks_apply, blockItem, refuses.bind.otherwise_eq]
  exact bind_eq_done.mpr ⟨members, rest, readBody, rfl⟩

/-! ## The first word tells the item -/

variable {found : Item} {word : String}

/-- A reader that starts with one keyword refuses another word. -/
theorem refuses_word (isFirst : firstWord (skipBlanks false input) = word.toList)
    {other : String} (isWord : isWord other = true) (differs : word ≠ other) {β : Type}
    {next : Unit → Reader β} :
    Refuses (keyword other >>= next) (skipBlanks false input) := by
  apply Refuses.bind
  apply refuses_keyword isWord
  rw [isFirst]
  exact fun same => differs (String.toList_inj.mp same)

theorem refuses_statementItem
    (isFirst : firstWord (skipBlanks false input) = word.toList)
    (differs : ∀ kind : StatementKind, word ≠ kind.word) :
    Refuses statementItem (skipBlanks false input) := by
  have refuses : ∀ kind : StatementKind, Refuses
      (keyword kind.word >>= fun _ => pure kind) (skipBlanks false input) :=
    fun kind => refuses_word isFirst (isWord_statement kind) (differs kind)
  apply Refuses.bind
  exact (refuses .expression).otherwise <| (refuses .variableDefinition).otherwise <|
    (refuses .assignment).otherwise (refuses .compoundAssignment)

theorem item_of_result
    (isFirst : firstWord (skipBlanks false input) = "return".toList)
    (read : afterBlanks resultItem input = .done found rest) :
    afterBlanks (item nested) input = .done found rest :=
  (refuses_statementItem isFirst (by rintro (_ | _) <;> decide)).otherwise_done <|
  otherwise_of_done read

theorem item_of_decision
    (isFirst : firstWord (skipBlanks false input) = "if".toList)
    (read : afterBlanks (decisionItem nested) input = .done found rest) :
    afterBlanks (item nested) input = .done found rest :=
  (refuses_statementItem isFirst (by rintro (_ | _) <;> decide)).otherwise_done <|
  (refuses_word isFirst (by decide) (by decide)).otherwise_done <|
  otherwise_of_done read

theorem item_of_selection
    (isFirst : firstWord (skipBlanks false input) = "match".toList)
    (read : afterBlanks (selectionItem nested) input = .done found rest) :
    afterBlanks (item nested) input = .done found rest :=
  (refuses_statementItem isFirst (by rintro (_ | _) <;> decide)).otherwise_done <|
  (refuses_word isFirst (by decide) (by decide)).otherwise_done <|
  (refuses_word isFirst (by decide) (by decide)).otherwise_done <|
  otherwise_of_done read

/-- The items that are tried after the first four. -/
def laterItem (nested : Nested) : Reader Item :=
  (headedItem nested "while" .loopCondition (.loop · .whileHolds)).otherwise <|
  (headedItem nested "foreach" .loopHeader (.loop · .forEach)).otherwise <|
  (headedItem nested "function" .functionSignature
    (.container · .function)).otherwise <|
  (headedItem nested "service" .serviceName (.container · .service)).otherwise <|
  typeItem.otherwise <|
  blockItem nested

theorem item_of_later
    (isFirst : firstWord (skipBlanks false input) = word.toList)
    (noStatement : ∀ kind : StatementKind, word ≠ kind.word)
    (others : word ≠ "return" ∧ word ≠ "if" ∧ word ≠ "match")
    (read : afterBlanks (laterItem nested) input = .done found rest) :
    afterBlanks (item nested) input = .done found rest :=
  (refuses_statementItem isFirst noStatement).otherwise_done <|
  (refuses_word isFirst (by decide) others.1).otherwise_done <|
  (refuses_word isFirst (by decide) others.2.1).otherwise_done <|
  (refuses_word isFirst (by decide) others.2.2).otherwise_done read

theorem item_of_loop (kind : LoopKind) (isWritten : Word kind.word input a)
    (quotation : Quotation text a b) (isGiven : Given given b c)
    (opens : Mark '\x7b' c e) (readBody : nested.body c = .done members rest) :
    afterBlanks (item nested) input =
      .done (.loop (.ofText text given) kind (blockOf members)) rest := by
  have isFirst := isWritten.firstWord_eq (isWord_loop kind)
  have read : ∀ what, afterBlanks (headedItem nested kind.word what (.loop · kind))
      input = .done (.loop (.ofText text given) kind (blockOf members)) rest :=
    fun what => read_headedItem (isWord_loop kind) isWritten quotation isGiven opens
      readBody
  apply item_of_later isFirst
  · rintro (_ | _) <;> cases kind <;> decide
  · cases kind <;> decide
  cases kind with
  | whileHolds => exact otherwise_of_done (read _)
  | forEach =>
      exact (refuses_word isFirst (by decide) (by decide)).otherwise_done <|
        otherwise_of_done (read _)

theorem item_of_container (kind : ContainerKind) (isWritten : Word kind.word input a)
    (quotation : Quotation text a b) (isGiven : Given given b c)
    (opens : Mark '\x7b' c e) (readBody : nested.body c = .done members rest) :
    afterBlanks (item nested) input =
      .done (.container (.ofText text given) kind (blockOf members)) rest := by
  have isFirst := isWritten.firstWord_eq (isWord_container kind)
  have read : ∀ what,
      afterBlanks (headedItem nested kind.word what (.container · kind)) input =
        .done (.container (.ofText text given) kind (blockOf members)) rest :=
    fun what => read_headedItem (isWord_container kind) isWritten quotation isGiven
      opens readBody
  apply item_of_later isFirst
  · rintro (_ | _) <;> cases kind <;> decide
  · cases kind <;> decide
  cases kind with
  | function =>
      exact (refuses_word isFirst (by decide) (by decide)).otherwise_done <|
        (refuses_word isFirst (by decide) (by decide)).otherwise_done <|
        otherwise_of_done (read _)
  | service =>
      exact (refuses_word isFirst (by decide) (by decide)).otherwise_done <|
        (refuses_word isFirst (by decide) (by decide)).otherwise_done <|
        (refuses_word isFirst (by decide) (by decide)).otherwise_done <|
        otherwise_of_done (read _)

theorem item_of_type
    (isFirst : firstWord (skipBlanks false input) = "type".toList)
    (read : afterBlanks typeItem input = .done found rest) :
    afterBlanks (item nested) input = .done found rest := by
  apply item_of_later isFirst (by rintro (_ | _) <;> decide) (by decide)
  exact (refuses_word isFirst (by decide) (by decide)).otherwise_done <|
    (refuses_word isFirst (by decide) (by decide)).otherwise_done <|
    (refuses_word isFirst (by decide) (by decide)).otherwise_done <|
    (refuses_word isFirst (by decide) (by decide)).otherwise_done <|
    otherwise_of_done read

/-- A block starts with its keyword, or with no word at all. -/
theorem item_of_block (isFirst : firstWord (skipBlanks false input) = word.toList)
    (isBlock : word = "block" ∨ word = "")
    (read : afterBlanks (blockItem nested) input = .done found rest) :
    afterBlanks (item nested) input = .done found rest := by
  have differs : ∀ other, other ≠ "block" → other ≠ "" → word ≠ other := by
    rintro other notBlock notEmpty rfl
    rcases isBlock with isBlock | isBlock
    · exact notBlock isBlock
    · exact notEmpty isBlock
  have refuses : ∀ {other : String}, isWord other = true → other ≠ "block" →
      other ≠ "" →
      ∀ {next : Unit → Reader Item},
        Refuses (keyword other >>= next) (skipBlanks false input) :=
    fun isWord notBlock notEmpty =>
      refuses_word isFirst isWord (differs _ notBlock notEmpty)
  apply item_of_later isFirst
  · rintro (_ | _) <;> exact differs _ (by decide) (by decide)
  · exact ⟨differs _ (by decide) (by decide), differs _ (by decide) (by decide),
      differs _ (by decide) (by decide)⟩
  exact (refuses (by decide) (by decide) (by decide)).otherwise_done <|
    (refuses (by decide) (by decide) (by decide)).otherwise_done <|
    (refuses (by decide) (by decide) (by decide)).otherwise_done <|
    (refuses (by decide) (by decide) (by decide)).otherwise_done <|
    (refuses (by decide) (by decide) (by decide)).otherwise_done read

/-- Where neither a word nor a body starts, there is no item. -/
theorem refuses_item (noWord : firstWord (skipBlanks false input) = "".toList)
    (noBody : Refuses nested.body (skipBlanks false input)) :
    Refuses (afterBlanks (item nested)) input :=
  (refuses_statementItem noWord (by rintro (_ | _) <;> decide)).otherwise <|
  (refuses_word noWord (by decide) (by decide)).otherwise <|
  (refuses_word noWord (by decide) (by decide)).otherwise <|
  (refuses_word noWord (by decide) (by decide)).otherwise <|
  (refuses_word noWord (by decide) (by decide)).otherwise <|
  (refuses_word noWord (by decide) (by decide)).otherwise <|
  (refuses_word noWord (by decide) (by decide)).otherwise <|
  (refuses_word noWord (by decide) (by decide)).otherwise <|
  (refuses_word noWord (by decide) (by decide)).otherwise <|
  (refuses_word noWord (by decide) (by decide)).otherwise noBody.bind

end Read

/-! ## Bodies -/

theorem refuses_body {levels : Nat} {input : List Char}
    (noBrace : ahead input ≠ some '\x7b') :
    Refuses (nestedWithin levels).body (skipBlanks false input) := by
  have noneThere : ahead (skipBlanks false input) ≠ some '\x7b' := by
    rwa [ahead, (blanks_skipBlanks input).skipBlanks_eq.symm]
  have refuses : Refuses (expecting .openingBrace openingBrace)
      (skipBlanks false input) := (refuses_mark noneThere).expecting
  cases levels with
  | zero => exact refuses.bind
  | succ levels => exact refuses.bind

/-- What may follow the items of a body or an outline. -/
def Ends (rest : List Char) : Prop := ∀ c ∈ ahead rest, c = '\x7d'

/-- No other branch of a decision follows. -/
def NoElse (rest : List Char) : Prop :=
  firstWord (skipBlanks false rest) ≠ "else".toList

theorem Ends.noWord {rest : List Char} (ends : Ends rest) :
    firstWord (skipBlanks false rest) = "".toList := by
  unfold Ends ahead at ends
  cases skipped : skipBlanks false rest with
  | nil => rfl
  | cons c more =>
      obtain rfl : c = '\x7d' := ends c (by rw [skipped]; rfl)
      rfl

theorem Ends.noElse {rest : List Char} (ends : Ends rest) : NoElse rest := by
  rw [NoElse, ends.noWord]
  decide

theorem Mark.ends {input rest : List Char} (closes : Mark '\x7d' input rest) :
    Ends input := by
  intro c isAhead
  rw [closes.ahead (by decide)] at isAhead
  simpa using isAhead.symm

theorem Blanks.ends {input : List Char} (blanks : Blanks input []) : Ends input := by
  intro c isAhead
  rw [ahead, blanks.skipBlanks_eq] at isAhead
  cases isAhead

theorem Ends.refuses_item {levels : Nat} {rest : List Char} (ends : Ends rest) :
    Refuses (afterBlanks (item (nestedWithin levels))) rest := by
  apply Outline.refuses_item ends.noWord
  apply refuses_body
  intro isBrace
  exact absurd (ends _ isBrace) (by decide)

/-- A phrase is read by bodies that may nest as deep as it does. -/
def Phrase.ReadFrom : Phrase → List Char → List Char → Prop
  | .items members, input, rest => ∀ levels, nestingOfMembers members ≤ levels →
      Ends rest → Outline.items (nestedWithin levels) input = .done members rest
  | .item found, input, rest => ∀ levels, Outline.nesting found ≤ levels →
      NoElse rest →
        afterBlanks (Outline.item (nestedWithin levels)) input = .done found rest
  | .decision found, input, rest => ∀ levels, Outline.nesting found ≤ levels →
      NoElse rest →
        afterBlanks (Outline.decisionItem (nestedWithin levels)) input =
          .done found rest
  | .elsePart found, input, rest => ∀ levels, (Phrase.elsePart found).nesting ≤
      levels → NoElse rest →
        optional (do
          afterBlanks (keyword "else")
          required (nestedWithin levels).afterElse) input = .done found rest
  | .alternative found, input, rest => ∀ levels, nestingAfterElse found ≤ levels →
      NoElse rest → (nestedWithin levels).afterElse input = .done found rest
  | .arms bodies, input, rest => ∀ levels, nestingOfArms bodies ≤ levels →
      Ends rest →
        repeated (afterBlanks (armItem (nestedWithin levels))) input =
          .done bodies rest
  | .body members, input, rest => ∀ levels, nestingOfMembers members ≤ levels →
      ∃ a, Mark '\x7b' input a ∧
        bodyRest (nestedWithin levels) a = .done members rest

section ReadFrom

variable {members : List Item} {found : Item} {given : Attributes} {levels : Nat}
  {input other a b rest : List Char}

theorem Phrase.ReadFrom.body (reads : (Phrase.body members).ReadFrom input rest)
    (deepEnough : nestingOfMembers members + 1 ≤ levels)
    (same : skipBlanks false input = skipBlanks false other) :
    (nestedWithin levels).body other = .done members rest := by
  obtain ⟨levels, rfl⟩ := Nat.exists_eq_add_of_le' (Nat.le_of_add_left_le deepEnough)
  obtain ⟨a, opens, read⟩ := reads levels (Nat.le_of_succ_le_succ deepEnough)
  have readBrace : expecting .openingBrace openingBrace other = .done () a :=
    expecting_eq_done.mpr
      ((afterBlanks_char _ (by decide)).mpr (opens.of_same (by decide) same))
  exact bind_eq_done.mpr ⟨(), a, readBrace, read⟩

theorem Derives.items_noElse (areItems : Derives (.items members) input rest)
    (noElse : NoElse rest) : NoElse input := by
  cases areItems with
  | noItems => exact noElse
  | items isItem _ => exact isItem.item_starts

theorem firstWord_of_ahead {mark : Char} (isAhead : ahead input = some mark)
    (notInWord : isWordChar mark = false) :
    firstWord (skipBlanks false input) = "".toList := by
  obtain ⟨more, skipped⟩ := List.head?_eq_some_iff.mp isAhead
  rw [skipped]
  simp [firstWord, notInWord]

/-- Whatever attributes a block after `else` has, it does not start with a
word. -/
theorem Given.noWord (isGiven : Given given input a)
    (opens : Mark '\x7b' a b) :
    firstWord (skipBlanks false input) = "".toList := by
  rcases isGiven.ahead_eq with isAhead | isAhead | isAhead
  · exact firstWord_of_ahead isAhead (by decide)
  · exact firstWord_of_ahead isAhead (by decide)
  · rw [opens.ahead (by decide)] at isAhead
    exact firstWord_of_ahead isAhead (by decide)

theorem reads_elseDecision (isDecision : Derives (.decision found) input rest)
    (reads : (Phrase.decision found).ReadFrom input rest) :
    (Phrase.alternative found).ReadFrom input rest := by
  intro levels deepEnough noElse
  rw [nestingAfterElse, if_pos isDecision.tag_decision] at deepEnough
  obtain ⟨levels, rfl⟩ := Nat.exists_eq_add_of_le' (Nat.le_of_add_left_le deepEnough)
  have read := reads levels (Nat.le_of_succ_le_succ deepEnough) noElse
  exact expecting_eq_done.mpr (otherwise_of_done read)

theorem reads_elseBlock (isGiven : Given given input a)
    (reads : (Phrase.body members).ReadFrom a rest) :
    (Phrase.alternative (.block (.ofText "" given) members)).ReadFrom input
      rest := by
  intro levels deepEnough noElse
  rw [nestingAfterElse, if_neg (by simp [Program.tag]), nesting] at deepEnough
  obtain ⟨levels, rfl⟩ := Nat.exists_eq_add_of_le' (Nat.le_of_add_left_le deepEnough)
  obtain ⟨b, opens, read⟩ := reads levels (Nat.le_of_succ_le_succ deepEnough)
  have noDecision : Refuses (decisionItem (nestedWithin levels))
      (skipBlanks false input) :=
    refuses_word (isGiven.noWord opens) (by decide) (by decide)
  obtain ⟨left, isGiven, same⟩ :=
    isGiven.of_same (blanks_skipBlanks input).skipBlanks_eq
  have opens := opens.of_same (by decide) same
  have readGiven := isGiven.read_before opens (by decide) (by decide) (by decide)
  apply expecting_eq_done.mpr
  apply noDecision.otherwise_done
  apply bind_eq_done.mpr
  refine ⟨given, left, readGiven, ?_⟩
  simp only [bind_eq_done, pure_apply, Outcome.done.injEq, openingBrace,
    afterBlanks_char '\x7b' (by decide)]
  exact ⟨(), b, opens, members, rest, read, rfl, rfl⟩

theorem reads_body (opens : Mark '\x7b' input a)
    (reads : (Phrase.items members).ReadFrom a b) (closes : Mark '\x7d' b rest) :
    (Phrase.body members).ReadFrom input rest := by
  intro levels deepEnough
  refine ⟨a, opens, required_eq_done.mpr ?_⟩
  apply bind_eq_done.mpr
  refine ⟨members, b, reads levels deepEnough closes.ends, ?_⟩
  simp only [expecting_eq_done, bind_eq_done, pure_apply, Outcome.done.injEq,
    afterBlanks_char '\x7d' (by decide)]
  exact ⟨(), rest, closes, trivial, rfl⟩

end ReadFrom

theorem Derives.readFrom {phrase : Phrase} {input rest : List Char}
    (derives : Derives phrase input rest) : phrase.ReadFrom input rest := by
  induction derives with
  | noItems input =>
      intro levels _ ends
      exact ends.refuses_item.repeated
  | items isItem areItems readItem readItems =>
      intro levels deepEnough ends
      rw [nestingOfMembers, Nat.max_le] at deepEnough
      exact repeated_cons
        (readItem levels deepEnough.1 (areItems.items_noElse ends.noElse))
        isItem.item_length_lt (readItems levels deepEnough.2 ends)
  | statement isWritten quotation isGiven ends =>
      intro levels _ _
      exact otherwise_of_done (read_statementItem isWritten quotation isGiven ends)
  | result isWritten quotation isGiven ends =>
      intro levels _ _
      exact item_of_result (isWritten.firstWord_eq (by decide))
        (read_resultItem isWritten quotation isGiven ends)
  | emptyResult isWritten isGiven ends =>
      intro levels _ _
      exact item_of_result (isWritten.firstWord_eq (by decide))
        (read_emptyResultItem isWritten isGiven ends)
  | typeDefinition isWritten quotation isGiven ends =>
      intro levels _ _
      exact item_of_type (isWritten.firstWord_eq (by decide))
        (read_typeItem isWritten quotation isGiven ends)
  | decisionItem isDecision readDecision =>
      intro levels deepEnough noElse
      obtain ⟨a, isWritten, -⟩ := isDecision.decision_starts
      exact item_of_decision (isWritten.firstWord_eq (by decide))
        (readDecision levels deepEnough noElse)
  | selection isWritten quotation isGiven opens isArms closes readArms =>
      intro levels deepEnough _
      rw [nesting] at deepEnough
      exact item_of_selection (isWritten.firstWord_eq (by decide))
        (read_selectionItem isWritten quotation isGiven opens
          (readArms levels deepEnough closes.ends) closes)
  | @loop kind _ _ _ _ _ _ _ _ isWritten quotation isGiven isBody readBody =>
      intro levels deepEnough _
      rw [nesting, nesting_blockOf] at deepEnough
      obtain ⟨a, opens⟩ := isBody.body_opens
      exact item_of_loop kind isWritten quotation isGiven opens
        (readBody.body deepEnough rfl)
  | @container kind _ _ _ _ _ _ _ _ isWritten quotation isGiven isBody readBody =>
      intro levels deepEnough _
      rw [nesting, nesting_blockOf] at deepEnough
      obtain ⟨a, opens⟩ := isBody.body_opens
      exact item_of_container kind isWritten quotation isGiven opens
        (readBody.body deepEnough rfl)
  | block isWritten isGiven isBody readBody =>
      intro levels deepEnough _
      rw [nesting] at deepEnough
      obtain ⟨a, opens⟩ := isBody.body_opens
      exact item_of_block (isWritten.firstWord_eq (by decide)) (.inl rfl)
        (read_blockItem isWritten isGiven opens (readBody.body deepEnough rfl))
  | @bareBlock members input rest isBody readBody =>
      intro levels deepEnough _
      rw [nesting_blockOf] at deepEnough
      obtain ⟨a, opens⟩ := isBody.body_opens
      have noWord : firstWord (skipBlanks false input) = "".toList :=
        opens.firstWord_eq (by decide) (by decide)
      have read := readBody.body deepEnough
        (blanks_skipBlanks input).skipBlanks_eq
      exact item_of_block noWord (.inr rfl) (read_bareBlock noWord read)
  | decision isWritten quotation isGiven isBody elsePart readBody readElse =>
      intro levels deepEnough noElse
      rw [nesting_decision, nesting_blockOf, Nat.max_le] at deepEnough
      obtain ⟨a, opens⟩ := isBody.body_opens
      exact read_decisionItem isWritten quotation isGiven opens
        (readBody.body deepEnough.1 rfl) (readElse levels deepEnough.2 noElse)
  | noElse input =>
      intro levels _ noElse
      have refuses : Refuses (afterBlanks (keyword "else")) input :=
        refuses_keyword (by decide) noElse
      exact refuses.bind.optional
  | elsePart isWritten isAlternative readAlternative =>
      intro levels deepEnough noElse
      apply optional_of_done
      apply (afterBlanks_keyword_bind (by decide)).mpr
      exact ⟨_, isWritten,
        required_eq_done.mpr (readAlternative levels deepEnough noElse)⟩
  | elseDecision isDecision readDecision =>
      exact reads_elseDecision isDecision readDecision
  | elseBlock isGiven isBody readBody => exact reads_elseBlock isGiven readBody
  | noArms input =>
      intro levels _ ends
      have refuses : Refuses (afterBlanks (armItem (nestedWithin levels))) input :=
        refuses_word ends.noWord (by decide) (by decide)
      exact refuses.repeated
  | arms isWritten quotation isGiven isBody isArms readBody readArms =>
      intro levels deepEnough ends
      rw [nestingOfArms, nesting, Nat.max_le] at deepEnough
      obtain ⟨a, opens⟩ := isBody.body_opens
      have bodyLength := isBody.length_le
      exact repeated_cons
        (read_armItem isWritten quotation isGiven opens
          (readBody.body deepEnough.1 rfl)) (by grind)
        (readArms levels deepEnough.2 ends)
  | body opens areItems closes readItems =>
      exact reads_body opens readItems closes

/-! ## Whole texts -/

theorem endOfText_eq_done {input rest : List Char} {result : Unit} :
    afterBlanks endOfText input = .done result rest ↔
      rest = [] ∧ Blanks input [] := by
  rw [afterBlanks_apply, blanks_iff (by simp)]
  cases skipBlanks false input with
  | nil =>
      simp only [endOfText, Outcome.done.injEq, true_and, and_true]
      exact eq_comm
  | cons c more => simp [endOfText]

theorem outline_eq_done {text rest : List Char} {members : List Item} :
    outline text = .done members rest ↔
      rest = [] ∧ IsOutline text members ∧
        nestingOfMembers members ≤ nestingLimit := by
  constructor
  · intro read
    obtain ⟨members, a, readItems, read⟩ := bind_eq_done.mp read
    simp only [expecting_eq_done, bind_eq_done, pure_apply, Outcome.done.injEq,
      endOfText_eq_done] at read
    obtain ⟨_, _, ⟨rfl, blanks⟩, rfl, rfl⟩ := read
    obtain ⟨areItems, deepEnough⟩ :=
      of_items (sound_nestedWithin nestingLimit) readItems
    exact ⟨rfl, ⟨a, areItems, blanks⟩, deepEnough⟩
  · rintro ⟨rfl, ⟨a, areItems, blanks⟩, deepEnough⟩
    apply bind_eq_done.mpr
    refine ⟨members, a, areItems.readFrom nestingLimit deepEnough blanks.ends, ?_⟩
    simp only [expecting_eq_done, bind_eq_done, pure_apply, Outcome.done.injEq,
      endOfText_eq_done]
    exact ⟨(), [], ⟨rfl, blanks⟩, trivial, rfl⟩

/-- Items are read from a text if and only if it is an outline of them and its
bodies nest no deeper than the limit. -/
theorem readItems_iff (source : String) (members : List Item) :
    readItems source = .ok members ↔
      IsOutline source.toList members ∧
        nestingOfMembers members ≤ nestingLimit := by
  have isOutline : (∃ rest, outline source.toList = .done members rest) ↔
      IsOutline source.toList members ∧
        nestingOfMembers members ≤ nestingLimit := by
    simp only [outline_eq_done, exists_eq_left]
  rw [← isOutline, readItems]
  cases read : outline source.toList with
  | done found rest => simp
  | refused place expected => simp
  | failed place expected => simp

end Flowchart.Outline
