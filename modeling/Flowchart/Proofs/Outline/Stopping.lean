import Flowchart.Proofs.Outline.Tokens

/-!
# Where readers stop

A reader may take a value, refuse or fail, and whichever it does, it tells where it
stopped.  However readers are put together, and however often text was put back on
the way, what is left there is an end of the text that was read.
-/

namespace Flowchart.Outline

/-- The text that is left where reading stopped. -/
def Outcome.left {β : Type} : Outcome β → List Char
  | .done _ rest => rest
  | .refused place _ | .failed place _ => place

@[simp]
theorem Outcome.left_map {β γ : Type} (change : β → γ) (outcome : Outcome β) :
    (outcome.map change).left = outcome.left := by
  cases outcome <;> rfl

namespace Reader

variable {β γ : Type}

/-- What is left where the reader stops is an end of the text it was given. -/
def StopsInside (reader : Reader β) : Prop :=
  ∀ input, (reader input).left <:+ input

/-! ## Readers built from readers -/

namespace StopsInside

variable {reader first second : Reader β} {next : β → Reader γ}

protected theorem pure (value : β) : (pure value : Reader β).StopsInside :=
  fun _ => List.suffix_rfl

protected theorem bind (inside : reader.StopsInside)
    (each : ∀ value, (next value).StopsInside) : (reader >>= next).StopsInside := by
  intro input
  have before := inside input
  change (reader.andThen next input).left <:+ input
  unfold andThen
  cases read : reader input with
  | done value middle =>
      rw [read] at before
      exact (each value middle).trans before
  | refused place expected | failed place expected =>
      rw [read] at before
      exact before

protected theorem stop : (stop : Reader β).StopsInside :=
  fun _ => List.suffix_rfl

protected theorem expecting (inside : reader.StopsInside) (expected : Expected) :
    (expecting expected reader).StopsInside := by
  intro input
  have before := inside input
  unfold Reader.expecting
  cases read : reader input <;> rw [read] at before <;> exact before

protected theorem required (inside : reader.StopsInside) :
    (required reader).StopsInside := by
  intro input
  have before := inside input
  unfold Reader.required
  cases read : reader input <;> rw [read] at before <;> exact before

protected theorem otherwise (inside : first.StopsInside)
    (insideToo : second.StopsInside) : (otherwise first second).StopsInside := by
  intro input
  have before := inside input
  unfold Reader.otherwise
  cases read : first input with
  | refused place expected => exact insideToo input
  | done value rest | failed place expected =>
      rw [read] at before
      exact before

protected theorem optional (inside : reader.StopsInside) :
    (optional reader).StopsInside := by
  intro input
  have before := inside input
  unfold Reader.optional
  cases read : reader input with
  | refused place expected => exact List.suffix_rfl
  | done value rest | failed place expected =>
      rw [read] at before
      exact before

protected theorem repeated (inside : reader.StopsInside) :
    StopsInside (Reader.repeated reader) := by
  intro input
  induction measured : input.length using Nat.strong_induction_on
    generalizing input with
  | _ length ih =>
    have before := inside input
    rw [Reader.repeated]
    cases read : reader input with
    | refused place expected => exact List.suffix_rfl
    | failed place expected =>
        rw [read] at before
        exact before
    | done value middle =>
        rw [read] at before
        by_cases shorter : middle.length < input.length
        · have further := ih middle.length (measured ▸ shorter) middle rfl
          dsimp only
          rw [if_pos shorter]
          cases again : repeated reader middle <;> rw [again] at further
          all_goals exact further.trans before
        · dsimp only
          rw [if_neg shorter]
          exact before

protected theorem separated {separator : Reader Unit} (inside : reader.StopsInside)
    (between : separator.StopsInside) : (separated reader separator).StopsInside :=
  .bind inside fun _ =>
    .bind (.repeated (.bind between fun _ => inside)) fun _ => .pure _

end StopsInside

/-! ## Characters -/

theorem stopsInside_charWhere (accepted : Char → Bool) :
    (charWhere accepted).StopsInside := by
  intro input
  cases input with
  | nil => exact List.suffix_rfl
  | cons first rest =>
      rw [charWhere]
      split
      · exact List.suffix_cons first rest
      · exact List.suffix_rfl

theorem stopsInside_char (expected : Char) : (char expected).StopsInside :=
  .bind (stopsInside_charWhere _) fun _ => .pure _

theorem stopsInside_nonemptyRun (accepted : Char → Bool) :
    (nonemptyRun accepted).StopsInside := by
  intro input
  unfold nonemptyRun
  split
  · exact List.suffix_rfl
  · exact List.dropWhile_suffix accepted

theorem stopsInside_literal (expected : String) : (literal expected).StopsInside := by
  intro input
  unfold literal
  split
  · exact List.drop_suffix _ _
  · exact List.suffix_rfl

theorem stopsInside_notBefore (refused : Char → Bool) :
    (notBefore refused).StopsInside := by
  intro input
  cases input with
  | nil => exact List.suffix_rfl
  | cons first rest =>
      rw [notBefore]
      split
      · exact List.suffix_rfl
      · exact List.suffix_rfl

theorem stopsInside_endOfText : endOfText.StopsInside := by
  intro input
  cases input <;> exact List.suffix_rfl

end Reader

open Reader

/-! ## Tokens -/

theorem Blanks.suffix {input rest : List Char} (blanks : Blanks input rest) :
    rest <:+ input := by
  induction blanks with
  | nothing text => exact List.suffix_rfl
  | blank _ _ ih => exact ih.trans (List.suffix_cons _ _)
  | @comment line text rest _ _ _ ih =>
      have inLine : text <:+ '/' :: '/' :: (line ++ text) :=
        List.suffix_append ('/' :: '/' :: line) text
      exact ih.trans inLine

theorem stopsInside_blanks : blanks.StopsInside :=
  fun input => (blanks_skipBlanks input).suffix

theorem Reader.StopsInside.afterBlanks {β : Type} {reader : Reader β}
    (inside : reader.StopsInside) : (afterBlanks reader).StopsInside :=
  .bind stopsInside_blanks fun _ => inside

theorem stopsInside_keyword (word : String) : (keyword word).StopsInside :=
  .bind (stopsInside_literal word) fun _ => stopsInside_notBefore _

theorem stopsInside_quotedContent : quotedContent.StopsInside := by
  intro input
  induction input using quotedContent.induct with
  | case1 => exact List.suffix_rfl
  | case2 => exact List.nil_suffix
  | case3 letter input meant isEscape ih =>
      simp only [quotedContent, isEscape, Outcome.left_map]
      exact ih.trans (List.suffix_append ['\\', letter] input)
  | case4 letter input noEscape =>
      simp only [quotedContent, noEscape]
      exact List.suffix_cons '\\' (letter :: input)
  | case5 c input notLast notEscape plain ih =>
      rw [quotedContent, if_pos plain, Outcome.left_map]
      · exact ih.trans (List.suffix_cons c input)
      · exact notLast
      · exact notEscape
  | case6 c input notLast notEscape plain =>
      rw [quotedContent, if_neg plain]
      · exact List.suffix_rfl
      · exact notLast
      · exact notEscape

theorem stopsInside_stringLiteral : stringLiteral.StopsInside :=
  .bind (stopsInside_char _) fun _ =>
    .expecting (.required (.bind stopsInside_quotedContent fun _ =>
      .bind (stopsInside_char _) fun _ => .pure _)) _

theorem stopsInside_quotedText (what : Quoted) : (quotedText what).StopsInside :=
  .expecting stopsInside_stringLiteral _

theorem stopsInside_semicolon : semicolon.StopsInside :=
  .expecting (.afterBlanks (stopsInside_char _)) _

theorem stopsInside_nameText : nameText.StopsInside :=
  .bind (stopsInside_nonemptyRun _) fun _ _ => List.suffix_rfl

theorem stopsInside_dimensionValue : dimensionValue.StopsInside := by
  intro input
  have before := stopsInside_nonemptyRun isNumberChar input
  unfold dimensionValue
  cases read : nonemptyRun isNumberChar input with
  | done text rest =>
      rw [read] at before
      dsimp only
      split
      · exact before
      · exact List.suffix_rfl
  | refused place expected | failed place expected =>
      rw [read] at before
      exact before

theorem stopsInside_axis : axis.StopsInside :=
  .otherwise (.bind (stopsInside_keyword _) fun _ => .pure _)
    (.bind (stopsInside_keyword _) fun _ => .pure _)

theorem stopsInside_dimension : dimension.StopsInside :=
  .bind stopsInside_axis fun _ =>
    .bind (.afterBlanks (stopsInside_char _)) fun _ =>
      .bind (.afterBlanks stopsInside_dimensionValue) fun _ => .pure _

theorem stopsInside_sizeAttribute : sizeAttribute.StopsInside :=
  .bind (stopsInside_char _) fun _ =>
    .bind stopsInside_blanks fun _ =>
      .bind (.expecting (.required (.separated stopsInside_dimension
        (.bind (.afterBlanks (stopsInside_char _)) fun _ => stopsInside_blanks))) _)
        fun _ => .bind
          (.expecting (.required (.afterBlanks (stopsInside_char _))) _)
          fun _ => .pure _

theorem stopsInside_attributes : attributes.StopsInside :=
  .bind (.optional (.bind (.afterBlanks (stopsInside_char _)) fun _ =>
      .expecting (.required stopsInside_nameText) _)) fun _ =>
    .bind (.optional (.afterBlanks stopsInside_sizeAttribute)) fun _ => .pure _

/-! ## Items -/

theorem stopsInside_statementKeyword : statementKeyword.StopsInside :=
  .otherwise (.bind (stopsInside_keyword _) fun _ => .pure _) <|
    .otherwise (.bind (stopsInside_keyword _) fun _ => .pure _) <|
      .otherwise (.bind (stopsInside_keyword _) fun _ => .pure _)
        (.bind (stopsInside_keyword _) fun _ => .pure _)

theorem stopsInside_statementItem : statementItem.StopsInside :=
  .bind stopsInside_statementKeyword fun _ =>
    .required (.bind (.afterBlanks (stopsInside_quotedText _)) fun _ =>
      .bind stopsInside_attributes fun _ =>
        .bind stopsInside_semicolon fun _ => .pure _)

theorem stopsInside_resultItem : resultItem.StopsInside :=
  .bind (stopsInside_keyword _) fun _ =>
    .required (.bind (.optional (.afterBlanks stopsInside_stringLiteral)) fun _ =>
      .bind stopsInside_attributes fun _ =>
        .bind stopsInside_semicolon fun _ => .pure _)

theorem stopsInside_typeItem : typeItem.StopsInside :=
  .bind (stopsInside_keyword _) fun _ =>
    .required (.bind (.afterBlanks (stopsInside_quotedText _)) fun _ =>
      .bind stopsInside_attributes fun _ =>
        .bind stopsInside_semicolon fun _ => .pure _)

/-- What lies one level deeper is read inside its text. -/
structure Nested.StopsInside (nested : Nested) : Prop where
  body : nested.body.StopsInside
  afterElse : nested.afterElse.StopsInside

namespace Nested.StopsInside

variable {nested : Nested} (inside : nested.StopsInside)

include inside

theorem decisionItem : (decisionItem nested).StopsInside :=
  .bind (stopsInside_keyword _) fun _ =>
    .bind (.required (.bind (.afterBlanks (stopsInside_quotedText _)) fun _ =>
      .bind stopsInside_attributes fun _ =>
        .bind inside.body fun _ => .pure _)) fun _ =>
      .bind (.optional (.bind (.afterBlanks (stopsInside_keyword _)) fun _ =>
        .required inside.afterElse)) fun _ => .pure _

theorem armItem : (armItem nested).StopsInside :=
  .bind (stopsInside_keyword _) fun _ =>
    .required (.bind (.afterBlanks (stopsInside_quotedText _)) fun _ =>
      .bind stopsInside_attributes fun _ =>
        .bind inside.body fun _ => .pure _)

theorem selectionItem : (selectionItem nested).StopsInside :=
  .bind (stopsInside_keyword _) fun _ =>
    .bind (.required (.bind (.afterBlanks (stopsInside_quotedText _)) fun _ =>
      .bind stopsInside_attributes fun _ => .pure _)) fun _ =>
      .bind (.expecting (.required (.afterBlanks (stopsInside_char _))) _) fun _ =>
        .bind (.required (.bind (.repeated (.afterBlanks inside.armItem)) fun _ =>
          .bind (.expecting (.afterBlanks (stopsInside_char _)) _) fun _ =>
            .pure _)) fun _ => .pure _

theorem headedItem (word : String) (what : Quoted) (build : Written → Item → Item) :
    (headedItem nested word what build).StopsInside :=
  .bind (stopsInside_keyword _) fun _ =>
    .required (.bind (.afterBlanks (stopsInside_quotedText _)) fun _ =>
      .bind stopsInside_attributes fun _ =>
        .bind inside.body fun _ => .pure _)

theorem blockItem : (blockItem nested).StopsInside :=
  .otherwise
    (.bind (stopsInside_keyword _) fun _ =>
      .required (.bind stopsInside_attributes fun _ =>
        .bind inside.body fun _ => .pure _))
    (.bind inside.body fun _ => .pure _)

theorem item : (item nested).StopsInside :=
  .otherwise stopsInside_statementItem <|
    .otherwise stopsInside_resultItem <|
      .otherwise inside.decisionItem <|
        .otherwise inside.selectionItem <|
          .otherwise (inside.headedItem _ _ _) <|
            .otherwise (inside.headedItem _ _ _) <|
              .otherwise (inside.headedItem _ _ _) <|
                .otherwise (inside.headedItem _ _ _) <|
                  .otherwise stopsInside_typeItem inside.blockItem

theorem items : (items nested).StopsInside := .repeated (.afterBlanks inside.item)

theorem bodyRest : (bodyRest nested).StopsInside :=
  .required (.bind inside.items fun _ =>
    .bind (.expecting (.afterBlanks (stopsInside_char _)) _) fun _ => .pure _)

theorem elseItem : (elseItem nested).StopsInside :=
  .expecting (.afterBlanks (.otherwise inside.decisionItem
    (.bind stopsInside_attributes fun _ =>
      .bind (.afterBlanks (stopsInside_char _)) fun _ =>
        .bind inside.bodyRest fun _ => .pure _))) _

end Nested.StopsInside

/-- The reader that refuses deeper bodies stops where they would start. -/
theorem stopsInside_tooDeep {β : Type} : (tooDeep : Reader β).StopsInside :=
  .expecting .stop _

theorem stopsInside_nestedWithin (levels : Nat) :
    (nestedWithin levels).StopsInside := by
  have opens : (expecting .openingBrace openingBrace).StopsInside :=
    .expecting (.afterBlanks (stopsInside_char _)) _
  induction levels with
  | zero =>
      exact ⟨.bind opens fun _ => stopsInside_tooDeep, stopsInside_tooDeep⟩
  | succ levels inside =>
      exact ⟨.bind opens fun _ => inside.bodyRest, inside.elseItem⟩

theorem stopsInside_outline : outline.StopsInside :=
  .bind (stopsInside_nestedWithin nestingLimit).items fun _ =>
    .bind (.expecting (.afterBlanks stopsInside_endOfText) _) fun _ => .pure _

end Flowchart.Outline
