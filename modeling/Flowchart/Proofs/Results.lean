import Mathlib

/-!
# Lists of results

A step that may fail, taken for every item of a list.
-/

namespace Flowchart

variable {β γ ε : Type}

/-- Where every item gives a result, so does the list. -/
theorem mapM_eq_ok {step : β → Except ε γ} (result : β → γ) {items : List β}
    (each : ∀ item ∈ items, step item = .ok (result item)) :
    items.mapM step = .ok (items.map result) := by
  induction items with
  | nil => rfl
  | cons item rest ih =>
      have later : rest.mapM step = .ok (rest.map result) :=
        ih fun other otherIn => each other (List.mem_cons_of_mem _ otherIn)
      rw [List.mapM_cons, each item List.mem_cons_self, later]
      rfl

/-- Where every item gives a sound result that tells of the item, the list gives
as many sound results in the same order. -/
theorem exists_mapM_eq_ok {step : β → Except ε γ} (item : γ → β)
    {holds : γ → Prop} {items : List β}
    (each : ∀ given ∈ items, ∃ result, step given = .ok result ∧
      item result = given ∧ holds result) :
    ∃ results, items.mapM step = .ok results ∧ results.map item = items ∧
      ∀ result ∈ results, holds result := by
  induction items with
  | nil => exact ⟨[], rfl, rfl, by simp⟩
  | cons first rest ih =>
      obtain ⟨result, isResult, isItem, held⟩ := each first List.mem_cons_self
      obtain ⟨results, areResults, areItems, allHeld⟩ :=
        ih fun other otherIn => each other (List.mem_cons_of_mem _ otherIn)
      refine ⟨result :: results, ?_, ?_, List.forall_mem_cons.mpr ⟨held, allHeld⟩⟩
      · rw [List.mapM_cons, isResult, areResults]
        rfl
      · rw [List.map_cons, isItem, areItems]

theorem bind_eq_ok {step : Except ε β} {next : β → Except ε γ} {result : γ} :
    step >>= next = .ok result ↔
      ∃ value, step = .ok value ∧ next value = .ok result := by
  cases step with
  | error fault =>
      constructor
      · intro passed
        cases passed
      · rintro ⟨value, passed, -⟩
        cases passed
  | ok value =>
      constructor
      · intro passed
        exact ⟨value, rfl, passed⟩
      · rintro ⟨other, same, passed⟩
        cases same
        exact passed

/-- A step fails, or what is done with its value does. -/
theorem bind_eq_error {step : Except ε β} {next : β → Except ε γ} {fault : ε} :
    step >>= next = .error fault ↔
      step = .error fault ∨ ∃ value, step = .ok value ∧ next value = .error fault := by
  cases step with
  | error other =>
      change Except.error other = .error fault ↔ _
      simp
  | ok value =>
      change next value = .error fault ↔ _
      simp

/-- A list fails only where one of its items does. -/
theorem exists_of_mapM_eq_error {step : β → Except ε γ} {items : List β}
    {fault : ε} (fails : items.mapM step = .error fault) :
    ∃ item ∈ items, step item = .error fault := by
  induction items with
  | nil => cases fails
  | cons item rest ih =>
      rw [List.mapM_cons] at fails
      rcases bind_eq_error.mp fails with first | ⟨result, -, later⟩
      · exact ⟨item, List.mem_cons_self, first⟩
      · rcases bind_eq_error.mp later with restFails | ⟨results, -, passed⟩
        · obtain ⟨other, otherIn, otherFails⟩ := ih restFails
          exact ⟨other, List.mem_cons_of_mem _ otherIn, otherFails⟩
        · cases passed

/-- Something comes of a list if it does of every item. -/
theorem mapM_eq_some_iff {step : β → Option γ} {items : List β}
    {results : List γ} :
    items.mapM step = some results ↔ items.map step = results.map some := by
  induction items generalizing results with
  | nil => cases results <;> simp
  | cons item rest ih =>
      rw [List.mapM_cons, List.map_cons]
      cases results with
      | nil => cases step item <;> simp [Option.bind_eq_some_iff]
      | cons result others =>
          rw [List.map_cons, List.cons.injEq, ← ih]
          cases step item <;> simp [Option.bind_eq_some_iff, and_comm]

/-- Every result in a list is that of an item. -/
theorem exists_of_mapM_eq_ok {step : β → Except ε γ} {items : List β}
    {results : List γ} (areResults : items.mapM step = .ok results) {result : γ}
    (resultIn : result ∈ results) : ∃ item ∈ items, step item = .ok result := by
  induction items generalizing results with
  | nil =>
      cases areResults
      cases resultIn
  | cons first rest ih =>
      rw [List.mapM_cons] at areResults
      obtain ⟨found, isFound, rest_eq⟩ := bind_eq_ok.mp areResults
      obtain ⟨others, areOthers, all_eq⟩ := bind_eq_ok.mp rest_eq
      cases all_eq
      rcases List.mem_cons.mp resultIn with rfl | inOthers
      · exact ⟨first, List.mem_cons_self, isFound⟩
      · obtain ⟨item, itemIn, isItem⟩ := ih areOthers inOthers
        exact ⟨item, List.mem_cons_of_mem _ itemIn, isItem⟩

/-- Where results tell of their items, the list of results tells of the list. -/
theorem map_eq_of_mapM_eq_ok {step : β → Except ε γ} {item : γ → β}
    (tells : ∀ given result, step given = .ok result → item result = given)
    {items : List β} {results : List γ}
    (areResults : items.mapM step = .ok results) : results.map item = items := by
  induction items generalizing results with
  | nil =>
      cases areResults
      rfl
  | cons first rest ih =>
      rw [List.mapM_cons] at areResults
      obtain ⟨found, isFound, rest_eq⟩ := bind_eq_ok.mp areResults
      obtain ⟨others, areOthers, all_eq⟩ := bind_eq_ok.mp rest_eq
      cases all_eq
      rw [List.map_cons, tells first found isFound, ih areOthers]

theorem exists_of_isOk {result : Except ε β} (isOk : result.isOk = true) :
    ∃ value, result = .ok value := by
  cases result with
  | error fault => cases isOk
  | ok value => exact ⟨value, rfl⟩

/-- A result is known once something is seen of its value. -/
theorem exists_of_toOption {result : Except ε β} {view : β → γ} {seen : γ}
    (isSeen : result.toOption.map view = some seen) :
    ∃ value, result = .ok value ∧ view value = seen := by
  cases result with
  | error fault => cases isSeen
  | ok value => exact ⟨value, rfl, Option.some.inj isSeen⟩

theorem of_forM_eq_ok {step : β → Except ε PUnit} {items : List β}
    (passed : items.forM step = .ok ()) {item : β} (itemIn : item ∈ items) :
    step item = .ok () := by
  induction items with
  | nil => cases itemIn
  | cons first rest ih =>
      obtain ⟨⟨⟩, firstPassed, restPassed⟩ := bind_eq_ok.mp passed
      rcases List.mem_cons.mp itemIn with rfl | itemIn
      · exact firstPassed
      · exact ih restPassed itemIn

theorem forM_eq_ok {step : β → Except ε PUnit} {items : List β}
    (each : ∀ item ∈ items, step item = .ok ()) :
    items.forM step = .ok () := by
  induction items with
  | nil => rfl
  | cons item rest ih =>
      have later := ih fun other otherIn =>
        each other (List.mem_cons_of_mem _ otherIn)
      change (step item >>= fun _ => rest.forM step) = .ok ()
      rw [each item List.mem_cons_self]
      exact later

theorem findSome?_cons_or (test : β → Option γ) (item : β) (rest : List β) :
    (item :: rest).findSome? test = (test item).or (rest.findSome? test) := by
  rw [List.findSome?_cons]
  cases test item <;> rfl

theorem findSome?_congr {first second : β → Option γ}
    {items : List β} (same : ∀ item ∈ items, first item = second item) :
    items.findSome? first = items.findSome? second := by
  induction items with
  | nil => rfl
  | cons item rest ih =>
      rw [findSome?_cons_or, findSome?_cons_or, same item List.mem_cons_self,
        ih fun other otherIn => same other (List.mem_cons_of_mem _ otherIn)]

/-- What is found first in lists put together is found first in the first list
that has it. -/
theorem findSome?_flatMap {δ : Type} (items : List β) (inner : β → List γ)
    (test : γ → Option δ) :
    (items.flatMap inner).findSome? test =
      items.findSome? fun item => (inner item).findSome? test := by
  induction items with
  | nil => rfl
  | cons item rest ih =>
      rw [List.flatMap_cons, List.findSome?_append, ih, findSome?_cons_or]

/-- Lists that pair up under one view of their items pair up under another. -/
theorem map_eq_map_of_keys {κ δ : Type} {key : β → κ} {keyToo : γ → κ}
    {view : β → δ} {viewToo : γ → δ} {items : List β} {others : List γ}
    (sameKeys : items.map key = others.map keyToo)
    (each : ∀ item ∈ items, ∀ other ∈ others, key item = keyToo other →
      view item = viewToo other) :
    items.map view = others.map viewToo := by
  induction items generalizing others with
  | nil =>
      obtain rfl : others = [] := by simpa using sameKeys.symm
      rfl
  | cons item rest ih =>
      cases others with
      | nil => cases sameKeys
      | cons other restToo =>
          obtain ⟨sameKey, restSame⟩ := List.cons.inj sameKeys
          rw [List.map_cons, List.map_cons,
            each item List.mem_cons_self other List.mem_cons_self sameKey,
            ih restSame fun found foundIn mate mateIn =>
              each found (List.mem_cons_of_mem _ foundIn) mate
                (List.mem_cons_of_mem _ mateIn)]

end Flowchart
