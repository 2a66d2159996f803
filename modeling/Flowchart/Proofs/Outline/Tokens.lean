import Flowchart.Proofs.Outline.Reading

/-!
# Readers of tokens

What readers take from a text, in terms of the grammar.  Where a part can be
missing, what follows tells that it is.
-/

namespace Flowchart.Outline

open Reader

/-! ## Blanks -/

theorem skipBlanks_blank {c : Char} (isBlank : isBlank c = true)
    (text : List Char) : skipBlanks false (c :: text) = skipBlanks false text := by
  have notSlash : c ≠ '/' := by
    rintro rfl
    cases isBlank
  rw [skipBlanks]
  · simp [isBlank]
  · intro rest isSlash
    exact absurd isSlash notSlash

/-- In a comment every character up to the end of the line is skipped. -/
theorem skipBlanks_inLine {c : Char} (inLine : c ≠ '\n') (text : List Char) :
    skipBlanks true (c :: text) = skipBlanks true text := by
  induction measured : text.length using Nat.strong_induction_on
    generalizing c text with
  | _ length ih =>
    by_cases slashes : c = '/' ∧ text.head? = some '/'
    · obtain ⟨rfl, isHead⟩ := slashes
      cases text with
      | nil => cases isHead
      | cons other more =>
          obtain rfl : other = '/' := by simpa using isHead
          rw [skipBlanks]
          exact (ih more.length (by simp [← measured]) (by decide) more rfl).symm
    · rw [skipBlanks]
      · simp [inLine]
      · rintro rest rfl rfl
        simp at slashes

theorem skipBlanks_comment (text : List Char) :
    skipBlanks true text = skipBlanks false (text.dropWhile (· ≠ '\n')) := by
  induction text with
  | nil => rfl
  | cons c text ih =>
      by_cases isEnd : c = '\n'
      · subst isEnd
        simp [skipBlanks, isBlank]
      · rw [skipBlanks_inLine isEnd, ih]
        simp [isEnd]

theorem Blanks.ofComment {text rest : List Char}
    (blanks : Blanks (text.dropWhile (· ≠ '\n')) rest) :
    Blanks ('/' :: '/' :: text) rest := by
  have split := List.takeWhile_append_dropWhile (p := (· ≠ '\n')) (l := text)
  rw [← split]
  refine .comment ?_ ?_ blanks
  · intro inLine
    simpa using List.mem_takeWhile_imp inLine
  · intro c isHead
    have stopped := List.head?_dropWhile_not (· ≠ '\n') text
    rw [isHead] at stopped
    simpa using stopped

theorem blanks_skipBlanks (input : List Char) :
    Blanks input (skipBlanks false input) := by
  induction measured : input.length using Nat.strong_induction_on
    generalizing input with
  | _ length ih =>
    subst measured
    by_cases slashes : ∃ text, input = '/' :: '/' :: text
    · obtain ⟨text, rfl⟩ := slashes
      have shorter : (text.dropWhile (· ≠ '\n')).length <
          ('/' :: '/' :: text).length := by
        have := (List.dropWhile_sublist (l := text) (· ≠ '\n')).length_le
        simp only [List.length_cons]
        omega
      rw [skipBlanks, skipBlanks_comment]
      exact .ofComment (ih _ shorter _ rfl)
    · cases input with
      | nil => exact .nothing []
      | cons c text =>
          rw [skipBlanks]
          · by_cases isBlank : isBlank c = true
            · rw [if_pos isBlank]
              exact .blank isBlank (ih _ (by simp) text rfl)
            · simp only [isBlank, Bool.false_eq_true, if_false]
              exact .nothing _
          · rintro rest rfl rfl
            exact slashes ⟨rest, rfl⟩

/-- Blanks may be skipped in more than one step. -/
theorem Blanks.skipBlanks_eq {input rest : List Char} (blanks : Blanks input rest) :
    skipBlanks false input = skipBlanks false rest := by
  induction blanks with
  | nothing text => rfl
  | blank isBlank _ ih => rw [skipBlanks_blank isBlank, ih]
  | @comment line text rest inLine atEnd _ ih =>
      have isRest : (line ++ text).dropWhile (· ≠ '\n') = text := by
        apply dropWhile_eq
        · intro c inText
          have differs : c ≠ '\n' := fun same => inLine (same ▸ inText)
          simpa using differs
        · intro c isHead
          simpa using atEnd c isHead
      rw [skipBlanks, skipBlanks_comment, isRest, ih]

theorem Blanks.length_le {input rest : List Char} (blanks : Blanks input rest) :
    rest.length ≤ input.length := by
  induction blanks with
  | nothing text => exact le_refl _
  | blank _ _ ih => exact ih.trans (Nat.le_succ _)
  | @comment line text rest _ _ _ ih =>
      simp only [List.length_cons, List.length_append]
      omega

/-- A character that neither is blank nor starts a comment. -/
def startsToken (c : Char) : Bool := !isBlank c && c ≠ '/'

/-- Before what is not a blank there is nothing to skip. -/
theorem skipBlanks_token {text : List Char}
    (isToken : ∀ c ∈ text.head?, startsToken c = true) :
    skipBlanks false text = text := by
  cases text with
  | nil => rfl
  | cons c text =>
      have starts := isToken c rfl
      simp only [startsToken, Bool.and_eq_true, Bool.not_eq_true',
        decide_eq_true_eq] at starts
      rw [skipBlanks]
      · simp [starts.1]
      · rintro rest rfl rfl
        exact absurd rfl starts.2

theorem blanks_iff {input text : List Char}
    (isToken : ∀ c ∈ text.head?, startsToken c = true) :
    Blanks input text ↔ skipBlanks false input = text := by
  constructor
  · intro blanks
    rw [blanks.skipBlanks_eq, skipBlanks_token isToken]
  · intro skipped
    rw [← skipped]
    exact blanks_skipBlanks input

/-- A run of characters none of which is blank starts a token. -/
theorem IsRun.isToken {inRun : Char → Bool} {text rest : List Char}
    (isRun : IsRun inRun text rest)
    (noBlank : [' ', '\t', '\r', '\n', '/'].any inRun = false) :
    ∀ c ∈ (text ++ rest).head?, startsToken c = true := by
  intro c isHead
  obtain ⟨first, more, rfl⟩ := List.exists_cons_of_ne_nil isRun.nonempty
  obtain rfl : first = c := by simpa using isHead
  have inside : inRun first = true := isRun.all first (by simp)
  have differs : ∀ other ∈ [' ', '\t', '\r', '\n', '/'], first ≠ other := by
    rintro other isOther rfl
    have outside := List.any_eq_false.mp noBlank first isOther
    exact outside inside
  simp only [List.forall_mem_cons, List.not_mem_nil] at differs
  obtain ⟨space, tab, back, newline, slash, -⟩ := differs
  simp [startsToken, isBlank, space, tab, back, newline, slash]

/-! ## Marks and words -/

/-- What comes next after blanks. -/
def ahead (input : List Char) : Option Char := (skipBlanks false input).head?

theorem afterBlanks_apply {β : Type} (reader : Reader β) (input : List Char) :
    afterBlanks reader input = reader (skipBlanks false input) := rfl

theorem mark_iff {mark : Char} (isToken : startsToken mark = true)
    {input rest : List Char} :
    Mark mark input rest ↔ skipBlanks false input = mark :: rest :=
  blanks_iff (by simpa using isToken)

theorem Mark.ahead {mark : Char} {input rest : List Char}
    (isMark : Mark mark input rest) (isToken : startsToken mark = true) :
    ahead input = some mark := by
  rw [Outline.ahead, (mark_iff isToken).mp isMark]
  rfl

theorem Mark.of_same {mark : Char} {input other rest : List Char}
    (isMark : Mark mark input rest) (isToken : startsToken mark = true)
    (same : skipBlanks false input = skipBlanks false other) :
    Mark mark other rest := by
  rw [mark_iff isToken] at isMark ⊢
  rw [← same, isMark]

theorem Mark.length_lt {mark : Char} {input rest : List Char}
    (isMark : Mark mark input rest) : rest.length < input.length :=
  Nat.lt_of_succ_le (Blanks.length_le isMark)

theorem afterBlanks_char (mark : Char) (isToken : startsToken mark = true)
    {input rest : List Char} {result : Unit} :
    afterBlanks (char mark) input = .done result rest ↔ Mark mark input rest := by
  rw [afterBlanks_apply, char_eq_done, mark_iff isToken]

theorem refuses_mark {mark : Char} {input : List Char}
    (other : ahead input ≠ some mark) :
    Refuses (afterBlanks (char mark)) input :=
  refuses_char other

theorem literal_eq_done {word : String} {input rest : List Char} {result : Unit} :
    literal word input = .done result rest ↔ input = word.toList ++ rest := by
  unfold literal
  constructor
  · intro read
    split at read
    · next isFirst =>
        obtain ⟨more, rfl⟩ := List.isPrefixOf_iff_prefix.mp isFirst
        simp only [Outcome.done.injEq] at read
        rw [← read.2]
        simp [← String.length_toList]
    · cases read
  · rintro rfl
    have isFirst : word.toList.isPrefixOf (word.toList ++ rest) = true :=
      List.isPrefixOf_iff_prefix.mpr (List.prefix_append _ _)
    rw [if_pos isFirst]
    simp [← String.length_toList]

theorem notBefore_eq_done {refused : Char → Bool} {input rest : List Char}
    {result : Unit} :
    notBefore refused input = .done result rest ↔
      input = rest ∧ EndsRun refused rest := by
  cases input with
  | nil =>
      simp only [notBefore, Outcome.done.injEq, true_and]
      constructor
      · rintro rfl
        exact ⟨rfl, by simp [EndsRun]⟩
      · exact fun read => read.1
  | cons c more =>
      cases isRefused : refused c with
      | true =>
          simp only [notBefore, isRefused, if_true, reduceCtorEq, false_iff]
          rintro ⟨rfl, ends⟩
          simp [ends c rfl] at isRefused
      | false =>
          simp only [notBefore, isRefused, Bool.false_eq_true, if_false,
            Outcome.done.injEq, true_and]
          constructor
          · rintro rfl
            refine ⟨rfl, ?_⟩
            simpa [EndsRun] using isRefused
          · exact fun read => read.1

theorem keyword_eq_done {word : String} {input rest : List Char} {result : Unit} :
    keyword word input = .done result rest ↔
      input = word.toList ++ rest ∧ EndsRun isWordChar rest := by
  rw [keyword, bind_eq_done]
  simp only [literal_eq_done, notBefore_eq_done]
  constructor
  · rintro ⟨-, middle, rfl, rfl, ends⟩
    exact ⟨rfl, ends⟩
  · rintro ⟨rfl, ends⟩
    exact ⟨(), rest, rfl, rfl, ends⟩

/-- The word at the front of a text, which may be empty. -/
def firstWord (text : List Char) : List Char := text.takeWhile isWordChar

/-- Words consist of word characters. -/
def isWord (word : String) : Bool :=
  !word.toList.isEmpty && word.toList.all isWordChar

theorem isWord_statement (kind : StatementKind) : isWord kind.word = true := by
  cases kind <;> decide

theorem isWord_loop (kind : LoopKind) : isWord kind.word = true := by
  cases kind <;> decide

theorem isWord_container (kind : ContainerKind) : isWord kind.word = true := by
  cases kind <;> decide

theorem isRun_word {word : String} (isWord : isWord word = true)
    {rest : List Char} (ends : EndsRun isWordChar rest) :
    IsRun isWordChar word.toList rest := by
  simp only [Outline.isWord, Bool.and_eq_true, Bool.not_eq_true',
    List.isEmpty_eq_false_iff, List.all_eq_true] at isWord
  exact ⟨isWord.1, isWord.2, ends⟩

theorem firstWord_append {word : String} (isWord : isWord word = true)
    {rest : List Char} (ends : EndsRun isWordChar rest) :
    firstWord (word.toList ++ rest) = word.toList :=
  takeWhile_eq (isRun_word isWord ends).all ends

theorem word_iff {word : String} (isWord : isWord word = true)
    {input rest : List Char} :
    Word word input rest ↔
      skipBlanks false input = word.toList ++ rest ∧ EndsRun isWordChar rest :=
  and_congr_left fun ends => blanks_iff ((isRun_word isWord ends).isToken (by decide))

/-- Reading goes on after a keyword. -/
theorem afterBlanks_keyword_bind {word : String} (isWord : isWord word = true) {β : Type}
    {next : Unit → Reader β} {input rest : List Char} {value : β} :
    afterBlanks (keyword word >>= next) input = .done value rest ↔
      ∃ a, Word word input a ∧ next () a = .done value rest := by
  rw [afterBlanks_apply, bind_eq_done]
  simp only [keyword_eq_done, word_iff isWord]
  constructor
  · rintro ⟨_, a, isWritten, read⟩
    exact ⟨a, isWritten, read⟩
  · rintro ⟨a, isWritten, read⟩
    exact ⟨(), a, isWritten, read⟩

theorem Word.firstWord_eq {word : String} {input rest : List Char}
    (isWritten : Word word input rest) (isWord : isWord word = true) :
    firstWord (skipBlanks false input) = word.toList := by
  obtain ⟨skipped, ends⟩ := (word_iff isWord).mp isWritten
  rw [skipped, firstWord_append isWord ends]

theorem Word.length_lt {word : String} {input rest : List Char}
    (isWritten : Word word input rest) (isWord : isWord word = true) :
    rest.length < input.length := by
  have blanksLength := isWritten.1.length_le
  have positive := List.length_pos_iff.mpr (isRun_word isWord isWritten.2).nonempty
  rw [List.length_append] at blanksLength
  omega

theorem Mark.firstWord_eq {mark : Char} {input rest : List Char}
    (isMark : Mark mark input rest) (isToken : startsToken mark = true)
    (notInWord : isWordChar mark = false) :
    firstWord (skipBlanks false input) = [] := by
  rw [(mark_iff isToken).mp isMark, firstWord]
  simp [notInWord]

/-- A keyword is refused where another word stands. -/
theorem refuses_keyword {word : String} {text : List Char} (isWord : isWord word = true)
    (other : firstWord text ≠ word.toList) : Refuses (keyword word) text := by
  by_cases isFirst : word.toList.isPrefixOf text = true
  · obtain ⟨rest, rfl⟩ := List.isPrefixOf_iff_prefix.mp isFirst
    have isLiteral : literal word (word.toList ++ rest) = .done () rest :=
      literal_eq_done.mpr rfl
    rw [Refuses, keyword, bind_of_done isLiteral]
    cases rest with
    | nil =>
        refine absurd ?_ other
        exact firstWord_append isWord (by simp [EndsRun])
    | cons c more =>
        cases goesOn : isWordChar c with
        | true => exact ⟨_, _, by simp [notBefore, goesOn]; exact ⟨rfl, rfl⟩⟩
        | false =>
            refine absurd ?_ other
            exact firstWord_append isWord (by simpa [EndsRun] using goesOn)
  · apply Refuses.bind
    exact ⟨text, none, by simp [literal, isFirst]⟩

/-! ## Quoted texts -/

theorem Content.read {text input rest : List Char}
    (content : Content text input rest) :
    quotedContent input = .done text ('"' :: rest) := by
  induction content with
  | closed rest => simp [quotedContent, isPlain]
  | escape meant _ ih => simp [quotedContent, meant, ih, Outcome.map]
  | @plain c text input rest plain _ ih =>
      have notEscape : c ≠ '\\' := by
        rintro rfl
        cases plain
      rw [quotedContent]
      · simp [plain, ih, Outcome.map]
      · exact fun isEscape _ => notEscape isEscape
      · exact fun _ _ isEscape _ => notEscape isEscape

theorem Outcome.map_eq_done {β γ : Type} {change : β → γ} {outcome : Outcome β}
    {result : γ} {rest : List Char} :
    outcome.map change = .done result rest ↔
      ∃ value, outcome = .done value rest ∧ change value = result := by
  cases outcome with
  | done value middle =>
      simp only [Outcome.map, Outcome.done.injEq]
      constructor
      · rintro ⟨same, rfl⟩
        exact ⟨value, ⟨rfl, rfl⟩, same⟩
      · rintro ⟨_, ⟨rfl, rfl⟩, same⟩
        exact ⟨same, rfl⟩
  | refused place expected => simp [Outcome.map]
  | failed place expected => simp [Outcome.map]

theorem Content.of_read {text input rest : List Char}
    (read : quotedContent input = .done text ('"' :: rest)) :
    Content text input rest := by
  induction input using quotedContent.induct generalizing text with
  | case1 => simp [quotedContent] at read
  | case2 => simp [quotedContent] at read
  | case3 letter input meant isEscape ih =>
      simp only [quotedContent, isEscape, Outcome.map_eq_done] at read
      obtain ⟨more, read, rfl⟩ := read
      exact .escape isEscape (ih read)
  | case4 letter input noEscape => simp [quotedContent, noEscape] at read
  | case5 c input notLast notEscape plain ih =>
      rw [quotedContent, if_pos plain, Outcome.map_eq_done] at read
      · obtain ⟨more, read, rfl⟩ := read
        exact .plain plain (ih read)
      · exact notLast
      · exact notEscape
  | case6 c input notLast notEscape plain =>
      rw [quotedContent, if_neg plain, Outcome.done.injEq, List.cons.injEq] at read
      · obtain ⟨rfl, rfl, rfl⟩ := read
        exact .closed _
      · exact notLast
      · exact notEscape

theorem stringLiteral_eq_done {text : String} {input rest : List Char} :
    stringLiteral input = .done text rest ↔
      ∃ content start, input = '"' :: start ∧ Content content start rest ∧
        text = String.ofList content := by
  rw [stringLiteral, bind_eq_done]
  simp only [char_eq_done, expecting_eq_done, required_eq_done, bind_eq_done,
    pure_apply, Outcome.done.injEq]
  constructor
  · rintro ⟨-, start, rfl, content, middle, read, -, last, rfl, rfl, rfl⟩
    exact ⟨content, start, rfl, .of_read read, rfl⟩
  · rintro ⟨content, start, rfl, isContent, rfl⟩
    exact ⟨(), start, rfl, content, '"' :: rest, isContent.read, (), rest, rfl, rfl,
      rfl⟩

theorem afterBlanks_stringLiteral {text : String} {input rest : List Char} :
    afterBlanks stringLiteral input = .done text rest ↔
      Quotation text input rest := by
  rw [afterBlanks_apply, stringLiteral_eq_done]
  constructor
  · rintro ⟨content, start, skipped, isContent, rfl⟩
    exact .quoted ((mark_iff (by decide)).mpr skipped) isContent
  · rintro (⟨isMark, isContent⟩)
    exact ⟨_, _, (mark_iff (by decide)).mp isMark, isContent, rfl⟩

theorem afterBlanks_quotedText {what : Quoted} {text : String}
    {input rest : List Char} :
    afterBlanks (quotedText what) input = .done text rest ↔
      Quotation text input rest := by
  rw [← afterBlanks_stringLiteral, afterBlanks_apply, quotedText,
    expecting_eq_done, afterBlanks_apply]

theorem afterBlanks_semicolon {input rest : List Char} {result : Unit} :
    semicolon input = .done result rest ↔ Mark ';' input rest := by
  rw [semicolon, expecting_eq_done, afterBlanks_char _ (by decide)]

theorem Content.length_lt {text input rest : List Char}
    (content : Content text input rest) : rest.length < input.length := by
  induction content with
  | closed rest => simp
  | escape _ _ ih =>
      simp only [List.length_cons]
      omega
  | plain _ _ ih =>
      simp only [List.length_cons]
      omega

theorem Quotation.length_lt {text : String} {input rest : List Char}
    (quotation : Quotation text input rest) : rest.length < input.length := by
  cases quotation with
  | quoted isMark content => exact content.length_lt.trans isMark.length_lt

/-! ## Attributes -/

theorem nameText_eq_done {name : Name} {input rest : List Char} :
    nameText input = .done name rest ↔
      ∃ text, input = text ++ rest ∧ IsRun isNameChar text rest ∧
        name = ⟨String.ofList text, byteCount rest⟩ := by
  have split : nameText input = .done name rest ↔
      ∃ text middle, nonemptyRun isNameChar input = .done text middle ∧
        Outcome.done ⟨String.ofList text, byteCount middle⟩ middle =
          .done name rest := bind_eq_done
  simp only [split, nonemptyRun_eq_done, Outcome.done.injEq]
  constructor
  · rintro ⟨text, middle, ⟨rfl, isRun⟩, rfl, rfl⟩
    exact ⟨text, rfl, isRun, rfl⟩
  · rintro ⟨text, rfl, isRun, rfl⟩
    exact ⟨text, rest, ⟨rfl, isRun⟩, rfl, rfl⟩

theorem dimensionValue_eq_done {value : Float32} {input rest : List Char} :
    dimensionValue input = .done value rest ↔
      ∃ text, input = text ++ rest ∧ IsRun isNumberChar text rest ∧
        dimensionOf? text = some value := by
  constructor
  · intro read
    unfold dimensionValue at read
    cases run : nonemptyRun isNumberChar input with
    | done text middle =>
        simp only [run] at read
        split at read
        · next isValue =>
            simp only [Outcome.done.injEq] at read
            obtain ⟨rfl, rfl⟩ := read
            obtain ⟨rfl, isRun⟩ := nonemptyRun_eq_done.mp run
            exact ⟨text, rfl, isRun, isValue⟩
        · cases read
    | refused place expected => simp [run] at read
    | failed place expected => simp [run] at read
  · rintro ⟨text, rfl, isRun, isValue⟩
    have run : nonemptyRun isNumberChar (text ++ rest) = .done text rest :=
      nonemptyRun_eq_done.mpr ⟨rfl, isRun⟩
    simp [dimensionValue, run, isValue]

theorem dimensionOf?_eq_some {text : List Char} {value : Float32} :
    dimensionOf? text = some value ↔
      ∃ number, Number.Decimal.read? text = some number ∧
        number.toSingle.isFinite = true ∧ Scalar.zero ≤ number.toSingle ∧
          number.toSingle = value := by
  rw [dimensionOf?, Option.bind_eq_some_iff]
  simp only [Option.ite_none_right_eq_some, Bool.and_eq_true, decide_eq_true_eq,
    Option.some.injEq, and_assoc]

theorem afterBlanks_dimensionValue {value : Float32} {input rest : List Char} :
    afterBlanks dimensionValue input = .done value rest ↔
      Measure value input rest := by
  rw [afterBlanks_apply, dimensionValue_eq_done]
  simp only [dimensionOf?_eq_some]
  constructor
  · rintro ⟨text, skipped, isRun, number, isNumber, finite, positive, rfl⟩
    exact .number ((blanks_iff (isRun.isToken (by decide))).mpr skipped) isRun
      isNumber finite positive
  · rintro (⟨blanks, isRun, isNumber, finite, positive⟩)
    exact ⟨_, (blanks_iff (isRun.isToken (by decide))).mp blanks, isRun, _,
      isNumber, finite, positive, rfl⟩

theorem Axis.isWord (axis : Axis) : isWord axis.word = true := by
  cases axis <;> decide

theorem afterBlanks_axis {along : Axis} {input rest : List Char} :
    afterBlanks axis input = .done along rest ↔ Word along.word input rest := by
  constructor
  · intro read
    rcases of_otherwise_eq_done read with read | read
    · obtain ⟨a, isWritten, same⟩ :=
        (afterBlanks_keyword_bind (by decide)).mp read
      cases same
      exact isWritten
    · obtain ⟨a, isWritten, same⟩ :=
        (afterBlanks_keyword_bind (by decide)).mp read
      cases same
      exact isWritten
  · intro isWritten
    have isRead : afterBlanks (keyword along.word >>= fun _ => pure along) input =
        .done along rest :=
      (afterBlanks_keyword_bind along.isWord).mpr ⟨rest, isWritten, rfl⟩
    cases along with
    | width => exact otherwise_of_done isRead
    | height =>
        have notWidth : firstWord (skipBlanks false input) ≠ "width".toList := by
          rw [isWritten.firstWord_eq (by decide)]
          decide
        have refuses := refuses_keyword (by decide) notWidth
        rw [afterBlanks_apply, axis, refuses.bind.otherwise_eq]
        exact isRead

theorem afterBlanks_dimension {along : Axis × Float32} {input rest : List Char} :
    afterBlanks dimension input = .done along rest ↔
      Dimension along input rest := by
  rw [afterBlanks_apply, dimension, bind_eq_done]
  simp only [bind_eq_done, pure_apply, Outcome.done.injEq,
    afterBlanks_dimensionValue]
  constructor
  · rintro ⟨axis, a, isAxis, _, b, isMark, value, last, isMeasure, rfl, rfl⟩
    exact .along (afterBlanks_axis.mp isAxis) ((afterBlanks_char _ (by decide)).mp isMark)
      isMeasure
  · rintro (⟨isWord, isMark, isMeasure⟩)
    exact ⟨_, _, afterBlanks_axis.mpr isWord, (), _,
      (afterBlanks_char _ (by decide)).mpr isMark, _, _, isMeasure, rfl, rfl⟩

/-- What stands between two dimensions. -/
def comma : Reader Unit := do
  afterBlanks (char ',')
  blanks

theorem comma_dimension {along : Axis × Float32} {input rest : List Char} :
    (comma >>= fun _ => dimension) input = .done along rest ↔
      ∃ a, Mark ',' input a ∧ Dimension along a rest := by
  simp only [comma, bind_eq_done, afterBlanks_char ',' (by decide)]
  constructor
  · rintro ⟨_, middle, ⟨_, a, isMark, skipped⟩, read⟩
    obtain rfl : skipBlanks false a = middle := by simpa [blanks] using skipped
    exact ⟨a, isMark, afterBlanks_dimension.mp read⟩
  · rintro ⟨a, isMark, isDimension⟩
    exact ⟨(), skipBlanks false a, ⟨(), a, isMark, rfl⟩,
      afterBlanks_dimension.mpr isDimension⟩

theorem of_separated_dimension {dimensions : List (Axis × Float32)}
    {input rest : List Char}
    (read : separated dimension comma (skipBlanks false input) =
      .done dimensions rest) : Dimensions dimensions input rest := by
  obtain ⟨first, middle, readFirst, readOthers⟩ := bind_eq_done.mp read
  obtain ⟨others, last, repeatedly, same⟩ := bind_eq_done.mp readOthers
  obtain ⟨rfl, rfl⟩ : first :: others = dimensions ∧ last = rest := by
    simpa using same
  have isFirst : Dimension first input middle := afterBlanks_dimension.mp readFirst
  -- the first dimension moves along the list, so it is not fixed
  have further : ∀ first input, Dimension first input middle →
      Dimensions (first :: others) input last := by
    refine repeated_induction (motive := fun others middle last =>
      ∀ first input, Dimension first input middle →
        Dimensions (first :: others) input last) ?_ ?_ repeatedly
    · exact fun _ _ _ isFirst => .single isFirst
    · intro second others middle next last readSecond further first input isFirst
      obtain ⟨a, isMark, isSecond⟩ := comma_dimension.mp readSecond
      exact .more isFirst isMark (further second a isSecond)
  exact further first input isFirst

theorem Measure.length_lt {value : Float32} {input rest : List Char}
    (measure : Measure value input rest) : rest.length < input.length := by
  cases measure with
  | number blanks isRun _ _ _ =>
      have blanksLength := blanks.length_le
      have positive := List.length_pos_iff.mpr isRun.nonempty
      rw [List.length_append] at blanksLength
      omega

theorem Dimension.length_lt {along : Axis × Float32} {input rest : List Char}
    (dimension : Dimension along input rest) : rest.length < input.length := by
  cases dimension with
  | along isWord isMark measure =>
      exact measure.length_lt.trans
        (isMark.length_lt.trans (isWord.length_lt (Axis.isWord _)))

theorem Dimensions.read {dimensions : List (Axis × Float32)}
    {input rest : List Char} (isWritten : Dimensions dimensions input rest)
    (last : ahead rest ≠ some ',') :
    separated dimension comma (skipBlanks false input) =
      .done dimensions rest := by
  have others : ∃ first more a, dimensions = first :: more ∧
      Dimension first input a ∧
        repeated (comma >>= fun _ => dimension) a = .done more rest := by
    induction isWritten with
    | @single first input rest isFirst =>
        have refuses : Refuses (comma >>= fun _ => dimension) rest :=
          (refuses_mark last).bind.bind
        exact ⟨first, [], rest, rfl, isFirst, refuses.repeated⟩
    | @more first others input a b rest isFirst isMark _ ih =>
        obtain ⟨second, more, c, rfl, isSecond, repeatedly⟩ := ih last
        refine ⟨first, second :: more, a, rfl, isFirst, ?_⟩
        exact repeated_cons (comma_dimension.mpr ⟨b, isMark, isSecond⟩)
          (isSecond.length_lt.trans isMark.length_lt) repeatedly
  obtain ⟨first, more, a, rfl, isFirst, repeatedly⟩ := others
  have readFirst : dimension (skipBlanks false input) = .done first a :=
    afterBlanks_dimension.mpr isFirst
  rw [separated, bind_of_done readFirst]
  exact bind_eq_done.mpr ⟨more, rest, repeatedly, rfl⟩

theorem sizeAttribute_eq :
    sizeAttribute = (do
      char '['
      blanks
      let dimensions ← expecting .sizeAttribute <| required <|
        separated dimension comma
      expecting .endOfSize <| required <| afterBlanks (char ']')
      return sizeOf dimensions) := rfl

theorem afterBlanks_sizeAttribute {size : Size Float32} {input rest : List Char} :
    afterBlanks sizeAttribute input = .done size rest ↔
      ∃ dimensions a b, Mark '[' input a ∧ Dimensions dimensions a b ∧
        Mark ']' b rest ∧ size = sizeOf dimensions := by
  have parts : afterBlanks sizeAttribute input = .done size rest ↔
      ∃ dimensions a b, Mark '[' input a ∧
        separated dimension comma (skipBlanks false a) = .done dimensions b ∧
          Mark ']' b rest ∧ sizeOf dimensions = size := by
    rw [afterBlanks_apply, sizeAttribute_eq]
    simp only [bind_eq_done, expecting_eq_done, required_eq_done, pure_apply,
      Outcome.done.injEq, afterBlanks_char ']' (by decide), char_eq_done]
    constructor
    · rintro ⟨_, a, skipped, _, c, blank, dimensions, b, read, _, last, closes, rfl,
        rfl⟩
      obtain rfl : skipBlanks false a = c := by simpa [blanks] using blank
      exact ⟨dimensions, a, b, (mark_iff (by decide)).mpr skipped, read, closes, rfl⟩
    · rintro ⟨dimensions, a, b, opens, read, closes, rfl⟩
      exact ⟨(), a, (mark_iff (by decide)).mp opens, (), _, rfl, dimensions, b, read,
        (), rest, closes, rfl, rfl⟩
  rw [parts]
  constructor
  · rintro ⟨dimensions, a, b, opens, read, closes, rfl⟩
    exact ⟨dimensions, a, b, opens, of_separated_dimension read, closes, rfl⟩
  · rintro ⟨dimensions, a, b, opens, isWritten, closes, rfl⟩
    have last : ahead b ≠ some ',' := by
      rw [closes.ahead (by decide)]
      decide
    exact ⟨dimensions, a, b, opens, isWritten.read last, closes, rfl⟩

/-- Reads a name after its mark. -/
def markedName : Reader Name := do
  afterBlanks (char '@')
  expecting .name (required nameText)

theorem markedName_eq_done {name : Name} {input rest : List Char} :
    markedName input = .done name rest ↔
      ∃ text, Mark '@' input (text ++ rest) ∧ IsRun isNameChar text rest ∧
        name = ⟨String.ofList text, byteCount rest⟩ := by
  rw [markedName, bind_eq_done]
  simp only [expecting_eq_done, required_eq_done, nameText_eq_done,
    afterBlanks_char '@' (by decide)]
  constructor
  · rintro ⟨_, middle, isMark, text, rfl, isRun, rfl⟩
    exact ⟨text, isMark, isRun, rfl⟩
  · rintro ⟨text, isMark, isRun, rfl⟩
    exact ⟨(), text ++ rest, isMark, text, rfl, isRun, rfl⟩

theorem attributes_eq :
    attributes = (do
      let name ← optional markedName
      let hint ← optional (afterBlanks sizeAttribute)
      return ⟨name, hint⟩) := rfl

theorem of_attributes {given : Attributes} {input rest : List Char}
    (read : attributes input = .done given rest) : Given given input rest := by
  rw [attributes_eq] at read
  obtain ⟨name, a, readName, read⟩ := bind_eq_done.mp read
  obtain ⟨hint, b, readHint, same⟩ := bind_eq_done.mp read
  obtain ⟨rfl, rfl⟩ : (⟨name, hint⟩ : Attributes) = given ∧ b = rest := by
    simpa using same
  have isName : NamePart name input a := by
    rcases of_optional_eq_done readName with ⟨found, rfl, isFound⟩ | ⟨rfl, rfl⟩
    · obtain ⟨text, isMark, isRun, rfl⟩ := markedName_eq_done.mp isFound
      exact .name isMark isRun
    · exact .nothing _
  have isHint : SizePart hint a b := by
    rcases of_optional_eq_done readHint with ⟨found, rfl, isFound⟩ | ⟨rfl, rfl⟩
    · obtain ⟨dimensions, c, d, opens, isWritten, closes, rfl⟩ :=
        afterBlanks_sizeAttribute.mp isFound
      exact .size opens isWritten closes
    · exact .nothing _
  exact .both isName isHint

theorem Given.read {given : Attributes} {input rest : List Char}
    (isGiven : Given given input rest) (noName : ahead rest ≠ some '@')
    (noSize : ahead rest ≠ some '[') : attributes input = .done given rest := by
  obtain ⟨isName, isHint⟩ := isGiven
  rename_i name hint a
  have readHint : optional (afterBlanks sizeAttribute) a = .done hint rest := by
    cases isHint with
    | nothing => exact (refuses_mark noSize).bind.optional
    | size opens isWritten closes =>
        exact optional_of_done
          (afterBlanks_sizeAttribute.mpr ⟨_, _, _, opens, isWritten, closes, rfl⟩)
  have readName : optional markedName input = .done name a := by
    cases isName with
    | nothing =>
        have refuses : Refuses markedName input := by
          apply Refuses.bind
          apply refuses_mark
          cases isHint with
          | nothing => exact noName
          | size opens _ _ =>
              rw [opens.ahead (by decide)]
              decide
        exact refuses.optional
    | name isMark isRun =>
        exact optional_of_done (markedName_eq_done.mpr ⟨_, isMark, isRun, rfl⟩)
  rw [attributes_eq, bind_of_done readName, bind_of_done readHint, pure_apply]

/-- Attributes do not tell how many blanks stand before them.  If there are none,
the blanks are left in the text. -/
theorem Given.of_same {given : Attributes} {input other rest : List Char}
    (isGiven : Given given input rest)
    (same : skipBlanks false input = skipBlanks false other) :
    ∃ left, Given given other left ∧
      skipBlanks false rest = skipBlanks false left := by
  obtain ⟨isName, isHint⟩ := isGiven
  cases isName with
  | name isMark isRun =>
      exact ⟨rest, .both (.name (isMark.of_same (by decide) same) isRun) isHint, rfl⟩
  | nothing =>
      cases isHint with
      | nothing => exact ⟨other, .both (.nothing other) (.nothing other), same⟩
      | size opens isWritten closes =>
          exact ⟨rest, .both (.nothing other)
            (.size (opens.of_same (by decide) same) isWritten closes), rfl⟩

theorem NamePart.length_le {name : Option Name} {input rest : List Char}
    (part : NamePart name input rest) : rest.length ≤ input.length := by
  cases part with
  | nothing => exact le_refl _
  | name isMark isRun =>
      have marked := isMark.length_lt
      rw [List.length_append] at marked
      omega

theorem Dimensions.length_lt {dimensions : List (Axis × Float32)}
    {input rest : List Char} (isWritten : Dimensions dimensions input rest) :
    rest.length < input.length := by
  induction isWritten with
  | single isFirst => exact isFirst.length_lt
  | more isFirst isMark _ ih =>
      exact ih.trans (isMark.length_lt.trans isFirst.length_lt)

theorem Given.length_le {given : Attributes} {input rest : List Char}
    (isGiven : Given given input rest) : rest.length ≤ input.length := by
  obtain ⟨isName, isHint⟩ := isGiven
  refine le_trans ?_ isName.length_le
  cases isHint with
  | nothing => exact le_refl _
  | size opens isWritten closes =>
      exact (closes.length_lt.trans
        (isWritten.length_lt.trans opens.length_lt)).le

end Flowchart.Outline
