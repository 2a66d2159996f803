import Flowchart.Proofs.Outline.Repeated
import Flowchart.Proofs.Outline.Stopping

/-!
# Where errors point

What an error points at is a piece of the text it was found in: the character where
reading stopped, the empty piece behind a text that ends too early, or a name that
was mentioned before.
-/

namespace Flowchart

namespace Span

/-- The range takes up just this piece of a text. -/
def Covers (span : Span) (source piece : String) : Prop :=
  ∃ before after, source = before ++ piece ++ after ∧
    span.start = before.utf8ByteSize ∧ span.finish = (before ++ piece).utf8ByteSize

/-- The range can be cut out of a text: its ends lie in the text, and neither is in
the middle of a character. -/
structure LiesIn (span : Span) (source : String) : Prop where
  ordered : span.start ≤ span.finish
  finish_le_size : span.finish ≤ source.utf8ByteSize
  start_isValid : String.Pos.Raw.IsValid source ⟨span.start⟩
  finish_isValid : String.Pos.Raw.IsValid source ⟨span.finish⟩

theorem Covers.liesIn {span : Span} {source piece : String}
    (covers : span.Covers source piece) : span.LiesIn source := by
  obtain ⟨before, after, rfl, starts, finishes⟩ := covers
  have startValid : String.Pos.Raw.IsValid (before ++ piece ++ after) ⟨span.start⟩ :=
    String.Pos.Raw.isValid_iff_exists_append.mpr
      ⟨before, piece ++ after, String.append_assoc .., congrArg _ starts⟩
  have finishValid : String.Pos.Raw.IsValid (before ++ piece ++ after) ⟨span.finish⟩ :=
    String.Pos.Raw.isValid_iff_exists_append.mpr
      ⟨before ++ piece, after, rfl, congrArg _ finishes⟩
  exact ⟨span.start_le_finish, finishValid.le_utf8ByteSize, startValid, finishValid⟩

end Span

namespace Outline

/-- An error points at one character of a text, at its end, or at the name that the
message gives. -/
def Error.PointsInto (source : String) (error : Error) : Prop :=
  match error with
  | .unexpected _ span =>
      (∃ c, span.Covers source (String.singleton c)) ∨
        span.Covers source "" ∧ span.start = source.utf8ByteSize
  | .duplicateName _ span =>
      ∃ name, error.message = "node id `" ++ name ++ "` is used more than once" ∧
        span.Covers source name

theorem Error.PointsInto.liesIn {source : String} {error : Error}
    (points : error.PointsInto source) : error.span.LiesIn source := by
  cases error with
  | unexpected expected span =>
      obtain ⟨c, covers⟩ | ⟨covers, -⟩ := points <;> exact covers.liesIn
  | duplicateName name span =>
      obtain ⟨given, -, covers⟩ := points
      exact covers.liesIn

section

variable {source : String} {before piece after : List Char}

theorem covers_between (split : source.toList = before ++ piece ++ after) :
    (Span.between (byteCount before) (byteCount before + byteCount piece)).Covers
      source (String.ofList piece) := by
  refine ⟨String.ofList before, String.ofList after, ?_, ?_, ?_⟩
  · rw [← String.ofList_append, ← String.ofList_append, ← split, String.ofList_toList]
  · exact (utf8ByteSize_ofList before).symm
  · rw [String.utf8ByteSize_append, utf8ByteSize_ofList, utf8ByteSize_ofList]
    exact Nat.max_eq_left (Nat.le_add_right _ _)

/-- A mention takes up its name. -/
theorem covers_mention {region : Region} {mention : Mention}
    (split : source.toList = before ++ piece)
    (isIn : mention ∈ mentionsFrom region (byteCount before) piece) :
    mention.span.Covers source mention.name := by
  induction piece generalizing region before with
  | nil => cases isIn
  | cons c rest ih =>
      have further : source.toList = (before ++ [c]) ++ rest := by
        rw [split, List.append_assoc, List.singleton_append]
      have next : byteCount before + c.utf8Size = byteCount (before ++ [c]) := by
        rw [byteCount_append, byteCount_singleton]
      rw [mentionsFrom, next] at isIn
      split at isIn
      · rcases List.mem_cons.mp isIn with rfl | isLater
        · have name : rest = rest.takeWhile isNameChar ++ rest.dropWhile isNameChar :=
            List.takeWhile_append_dropWhile.symm
          rw [name, ← List.append_assoc] at further
          exact covers_between further
        · exact ih further isLater
      · exact ih further isIn

/-- Where reading stops it points at the next character, or else at the end. -/
theorem pointsInto_unexpected {place : List Char} (isLeft : place <:+ source.toList)
    (expected : Option Expected) :
    (Error.unexpected expected (.between (byteCount source.toList - byteCount place)
      (byteCount source.toList - byteCount place +
        (place.head?.map Char.utf8Size).getD 0))).PointsInto source := by
  obtain ⟨taken, split⟩ := isLeft
  have start : byteCount source.toList - byteCount place = byteCount taken := by
    rw [← split, byteCount_append, Nat.add_sub_cancel]
  rw [start]
  cases place with
  | nil =>
      rw [List.append_nil] at split
      have whole : source.toList = taken ++ [] ++ [] := by simp [split]
      refine .inr ⟨covers_between whole, ?_⟩
      rw [← byteCount_toList, ← split]
      rfl
  | cons c rest =>
      have whole : source.toList = taken ++ [c] ++ rest := by simp [← split]
      have covers := covers_between whole
      rw [byteCount_singleton, ← String.singleton_eq_ofList] at covers
      exact .inl ⟨c, covers⟩

/-- A text that is no outline is refused where reading stopped. -/
theorem pointsInto_of_readItems {error : Error}
    (refuses : readItems source = .error error) : error.PointsInto source := by
  have inside := stopsInside_outline source.toList
  simp only [readItems] at refuses
  cases read : outline source.toList with
  | done members rest =>
      rw [read] at refuses
      cases refuses
  | refused place expected | failed place expected =>
      rw [read] at refuses inside
      obtain rfl := Except.error.inj refuses
      exact pointsInto_unexpected inside expected

end

/-- Whatever text is refused, the error points at a character of it or at its end, or
at the name that it reports. -/
theorem parse_error_pointsInto {source : String} {error : Error}
    (refuses : parse source = .error error) :
    error.span.LiesIn source ∧ error.PointsInto source := by
  have points : error.PointsInto source := by
    rcases bind_eq_error.mp refuses with unread | ⟨members, read, _⟩
    · exact pointsInto_of_readItems unread
    · have unnamed := (parse_eq_error read).mp refuses
      obtain ⟨mention, rfl, ⟨isIn, -⟩, -⟩ := repeats_of_program read unnamed
      exact ⟨mention.name, rfl, covers_mention (List.nil_append _).symm isIn⟩
  exact ⟨points.liesIn, points⟩

/-- A range of two bytes, behind a quote that has one byte more than characters. -/
theorem parse_error_pointsInto_wideCharacter :
    ∃ error, parse "expr \"é\" ü;" = .error error ∧ error.span = .between 10 12 ∧
      error.span.LiesIn "expr \"é\" ü;" ∧ error.PointsInto "expr \"é\" ü;" := by
  have refuses : parse "expr \"é\" ü;" =
      .error (.unexpected (some .semicolon) (.between 10 12)) := by
    decide +kernel
  exact ⟨_, refuses, rfl, parse_error_pointsInto refuses⟩

end Outline

end Flowchart
