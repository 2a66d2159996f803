import Flowchart.Proofs.Outline.Grammar
import Mathlib.Data.List.TakeWhile
import Mathlib.Data.Nat.Init

/-!
# Readers built from readers

When a reader that is built from others takes a value, and when it refuses.
-/

namespace Flowchart.Outline

namespace Reader

variable {β γ : Type} {reader first second : Reader β} {next : β → Reader γ}
  {input rest : List Char} {value : β}

/-! ## Readers built from readers -/

/-- A reader takes nothing and lets another one try. -/
def Refuses (reader : Reader β) (input : List Char) : Prop :=
  ∃ place expected, reader input = .refused place expected

@[simp]
theorem pure_apply (value : β) (input : List Char) :
    (pure value : Reader β) input = .done value input := rfl

theorem bind_eq_done {result : γ} :
    (reader >>= next) input = .done result rest ↔
      ∃ value middle, reader input = .done value middle ∧
        next value middle = .done result rest := by
  change reader.andThen next input = _ ↔ _
  constructor
  · intro read
    unfold andThen at read
    cases inner : reader input with
    | done value middle =>
        rw [inner] at read
        exact ⟨value, middle, rfl, read⟩
    | refused place expected => simp [inner] at read
    | failed place expected => simp [inner] at read
  · rintro ⟨value, middle, inner, read⟩
    simp [andThen, inner, read]

theorem bind_of_done {middle : List Char}
    (read : reader input = .done value middle) :
    (reader >>= next) input = next value middle := by
  change reader.andThen next input = _
  simp [andThen, read]

theorem Refuses.bind (refuses : Refuses reader input) :
    Refuses (reader >>= next) input := by
  obtain ⟨place, expected, refused⟩ := refuses
  refine ⟨place, expected, ?_⟩
  change reader.andThen next input = _
  simp [andThen, refused]

theorem expecting_eq_done {expected : Expected} :
    expecting expected reader input = .done value rest ↔
      reader input = .done value rest := by
  cases read : reader input <;> simp [expecting, read]

theorem Refuses.expecting {expected : Expected} (refuses : Refuses reader input) :
    Refuses (expecting expected reader) input := by
  obtain ⟨place, known, refused⟩ := refuses
  exact ⟨place, known.or (some expected), by simp [Reader.expecting, refused]⟩

theorem required_eq_done :
    required reader input = .done value rest ↔
      reader input = .done value rest := by
  cases read : reader input <;> simp [required, read]

theorem of_otherwise_eq_done
    (read : otherwise first second input = .done value rest) :
    first input = .done value rest ∨ second input = .done value rest := by
  cases firstRead : first input <;> simp_all [otherwise]

theorem otherwise_of_done (read : first input = .done value rest) :
    otherwise first second input = .done value rest := by
  simp [otherwise, read]

theorem Refuses.otherwise_eq (refuses : Refuses first input) :
    otherwise first second input = second input := by
  obtain ⟨place, expected, refused⟩ := refuses
  simp [otherwise, refused]

theorem Refuses.otherwise_done (refuses : Refuses first input)
    (read : second input = .done value rest) :
    Reader.otherwise first second input = .done value rest := by
  rw [refuses.otherwise_eq, read]

theorem Refuses.otherwise (refuses : Refuses first input)
    (refusesToo : Refuses second input) :
    Refuses (otherwise first second) input := by
  rw [Refuses, refuses.otherwise_eq]
  exact refusesToo

theorem of_optional_eq_done {result : Option β}
    (read : optional reader input = .done result rest) :
    (∃ value, result = some value ∧ reader input = .done value rest) ∨
      result = none ∧ rest = input := by
  cases inner : reader input <;> simp_all [optional]

theorem optional_of_done (read : reader input = .done value rest) :
    optional reader input = .done (some value) rest := by
  simp [optional, read]

theorem Refuses.optional (refuses : Refuses reader input) :
    optional reader input = .done none input := by
  obtain ⟨place, expected, refused⟩ := refuses
  simp [Reader.optional, refused]

/-! ## Repetition -/

theorem repeated_induction {motive : List β → List Char → List Char → Prop}
    (nil : ∀ input, motive [] input input)
    (cons : ∀ value values input middle rest,
      reader input = .done value middle → motive values middle rest →
        motive (value :: values) input rest)
    {values : List β} (read : repeated reader input = .done values rest) :
    motive values input rest := by
  induction measured : input.length using Nat.strong_induction_on
    generalizing input values with
  | _ length ih =>
    rw [repeated] at read
    cases inner : reader input with
    | refused place expected =>
        simp only [inner, Outcome.done.injEq] at read
        obtain ⟨rfl, rfl⟩ := read
        exact nil _
    | failed place expected => simp [inner] at read
    | done value middle =>
        simp only [inner] at read
        by_cases shorter : middle.length < input.length
        · rw [if_pos shorter] at read
          cases further : repeated reader middle with
          | done others last =>
              simp only [further, Outcome.done.injEq] at read
              obtain ⟨rfl, rfl⟩ := read
              exact cons _ _ _ _ _ inner
                (ih middle.length (measured ▸ shorter) further rfl)
          | refused place expected => simp [further] at read
          | failed place expected => simp [further] at read
        · rw [if_neg shorter, Outcome.done.injEq] at read
          obtain ⟨rfl, rfl⟩ := read
          exact cons _ _ _ _ _ inner (nil _)

theorem Refuses.repeated (refuses : Refuses reader input) :
    repeated reader input = .done [] input := by
  obtain ⟨place, expected, refused⟩ := refuses
  rw [Reader.repeated]
  simp [refused]

theorem repeated_cons {values : List β} {middle : List Char}
    (read : reader input = .done value middle)
    (shorter : middle.length < input.length)
    (further : repeated reader middle = .done values rest) :
    repeated reader input = .done (value :: values) rest := by
  rw [repeated]
  simp [read, shorter, further]

/-! ## Characters and runs -/

theorem takeWhile_eq {inRun : Char → Bool} {text : List Char}
    (all : ∀ c ∈ text, inRun c = true) (ends : EndsRun inRun rest) :
    (text ++ rest).takeWhile inRun = text := by
  rw [List.takeWhile_append_of_pos all]
  cases rest with
  | nil => simp
  | cons c more => simp [ends c rfl]

theorem dropWhile_eq {inRun : Char → Bool} {text : List Char}
    (all : ∀ c ∈ text, inRun c = true) (ends : EndsRun inRun rest) :
    (text ++ rest).dropWhile inRun = rest := by
  rw [List.dropWhile_append_of_pos all]
  cases rest with
  | nil => simp
  | cons c more => simp [ends c rfl]

theorem endsRun_dropWhile (inRun : Char → Bool) (input : List Char) :
    EndsRun inRun (input.dropWhile inRun) := by
  intro c isHead
  have stopped := List.head?_dropWhile_not inRun input
  rw [isHead] at stopped
  simpa using stopped

theorem nonemptyRun_eq_done {inRun : Char → Bool} {text : List Char} :
    nonemptyRun inRun input = .done text rest ↔
      input = text ++ rest ∧ IsRun inRun text rest := by
  constructor
  · intro read
    unfold nonemptyRun at read
    split at read
    · cases read
    · next filled =>
        simp only [Outcome.done.injEq] at read
        obtain ⟨rfl, rfl⟩ := read
        refine ⟨List.takeWhile_append_dropWhile.symm, ?_, ?_, ?_⟩
        · simpa using filled
        · exact fun c inText => List.mem_takeWhile_imp inText
        · exact endsRun_dropWhile inRun input
  · rintro ⟨rfl, isRun⟩
    simp [nonemptyRun, takeWhile_eq isRun.all isRun.ends,
      dropWhile_eq isRun.all isRun.ends, isRun.nonempty]

theorem char_eq_done {mark : Char} {result : Unit} :
    char mark input = .done result rest ↔ input = mark :: rest := by
  rw [char, bind_eq_done]
  cases input with
  | nil => simp [charWhere]
  | cons c more =>
      by_cases same : c = mark <;> simp [charWhere, same]

theorem refuses_char {mark : Char} (other : input.head? ≠ some mark) :
    Refuses (char mark) input := by
  apply Refuses.bind
  cases input with
  | nil => exact ⟨_, _, rfl⟩
  | cons c more =>
      refine ⟨c :: more, none, ?_⟩
      have differs : c ≠ mark := by simpa using other
      simp [charWhere, differs]

end Reader

end Flowchart.Outline
