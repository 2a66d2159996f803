import Flowchart.Keyed
import Mathlib

/-!
# Items with distinct identities

Where no identity occurs twice, adding items one after the other lists them as
they come, and every item is found under its identity.
-/

namespace Flowchart.Keyed

variable {β : Type} {key : β → NodeId}

theorem put_of_new {items : List β} {item : β}
    (isNew : key item ∉ items.map key) : put key items item = items ++ [item] := by
  have notFound : ¬ items.any (fun other => decide (key other = key item)) = true := by
    rw [List.any_eq_true]
    rintro ⟨other, otherIn, same⟩
    exact isNew (List.mem_map.mpr ⟨other, otherIn, of_decide_eq_true same⟩)
  exact if_neg notFound

theorem ofList_eq_self {items : List β} (distinct : (items.map key).Nodup) :
    ofList key items = items := by
  have appended : ∀ earlier : List β, ((earlier ++ items).map key).Nodup →
      items.foldl (put key) earlier = earlier ++ items := by
    clear distinct
    induction items with
    | nil => simp
    | cons item rest ih =>
        intro earlier nodup
        have isNew : key item ∉ earlier.map key := by
          rw [List.map_append, List.nodup_append] at nodup
          exact fun again => nodup.2.2 _ again _ (by simp) rfl
        rw [List.foldl_cons, put_of_new isNew,
          ih (earlier ++ [item]) (by simpa using nodup)]
        simp
  simpa [ofList] using appended [] (by simpa using distinct)

/-! ## Identities of added items -/

theorem map_put (items : List β) (item : β) :
    (put key items item).map key =
      if key item ∈ items.map key then items.map key
      else items.map key ++ [key item] := by
  split
  case isTrue again =>
    obtain ⟨other, otherIn, same⟩ := List.mem_map.mp again
    have found : items.any (fun other => decide (key other = key item)) = true :=
      List.any_eq_true.mpr ⟨other, otherIn, decide_eq_true same⟩
    rw [put, if_pos found, List.map_map]
    refine List.map_congr_left fun replaced _ => ?_
    rw [Function.comp_apply]
    split
    · rename_i same
      exact same.symm
    · rfl
  case isFalse isNew =>
    rw [put_of_new isNew, List.map_append, List.map_singleton]

theorem ofList_concat (items : List β) (item : β) :
    ofList key (items ++ [item]) = put key (ofList key items) item := by
  rw [ofList, List.foldl_append]
  rfl

/-- Every identity is listed once. -/
theorem nodup_ofList (items : List β) : ((ofList key items).map key).Nodup := by
  induction items using List.reverseRecOn with
  | nil => exact List.nodup_nil
  | append_singleton items item ih =>
      rw [ofList_concat, map_put]
      split
      · exact ih
      · rename_i isNew
        exact List.nodup_append.mpr ⟨ih, List.nodup_singleton _, by grind⟩

theorem mem_map_ofList {items : List β} {id : NodeId} :
    id ∈ (ofList key items).map key ↔ id ∈ items.map key := by
  induction items using List.reverseRecOn with
  | nil => rfl
  | append_singleton items item ih =>
      rw [ofList_concat, map_put, List.map_append, List.mem_append, ← ih]
      split <;> grind

/-- No item comes from elsewhere. -/
theorem mem_of_mem_ofList {items : List β} {item : β}
    (itemIn : item ∈ ofList key items) : item ∈ items := by
  induction items using List.reverseRecOn with
  | nil => exact itemIn
  | append_singleton items last ih =>
      rw [ofList_concat, put] at itemIn
      grind
/-! ## Changed items -/

section

variable {γ : Type} {keyToo : γ → NodeId} {change : β → γ}
  (sameKey : ∀ item, keyToo (change item) = key item)

include sameKey

theorem put_map (items : List β) (item : β) :
    put keyToo (items.map change) (change item) =
      (put key items item).map change := by
  simp only [put, List.any_map, Function.comp_def, sameKey]
  split
  · rw [List.map_map, List.map_map]
    refine List.map_congr_left fun other _ => ?_
    simp only [Function.comp_apply, sameKey]
    split <;> rfl
  · rw [List.map_append, List.map_singleton]

/-- Items that keep their identities are listed as they were. -/
theorem ofList_map (items : List β) :
    ofList keyToo (items.map change) = (ofList key items).map change := by
  rw [ofList, List.foldl_map]
  show items.foldl _ (([] : List β).map change) = _
  exact List.foldl_hom (List.map change) (put_map sameKey)

theorem find?_map (items : List β) (id : NodeId) :
    find? keyToo (items.map change) id = (find? key items id).map change := by
  simp only [find?, List.find?_map, Function.comp_def, sameKey]

end

/-- An item is the only one with its identity. -/
theorem find?_eq_some {items : List β} (distinct : (items.map key).Nodup)
    {item : β} (itemIn : item ∈ items) :
    find? key items (key item) = some item := by
  induction items with
  | nil => simp at itemIn
  | cons first rest ih =>
      rw [List.map_cons, List.nodup_cons] at distinct
      rw [find?, List.find?_cons]
      rcases List.mem_cons.mp itemIn with rfl | inRest
      · simp
      · have different : key first ≠ key item := by
          intro same
          exact distinct.1 (same ▸ List.mem_map_of_mem inRest)
        rw [decide_eq_false different]
        exact ih distinct.2 inRest

theorem find?_eq_none {items : List β} {id : NodeId}
    (missing : id ∉ items.map key) : find? key items id = none := by
  rw [find?, List.find?_eq_none]
  intro item itemIn isKey
  exact missing (List.mem_map.mpr ⟨item, itemIn, of_decide_eq_true isKey⟩)

/-- A value is the only one under its key. -/
theorem lookup_eq_some {γ δ : Type} [BEq γ] [LawfulBEq γ]
    {entries : List (γ × δ)} (distinct : (entries.map Prod.fst).Nodup)
    {name : γ} {value : δ} :
    entries.lookup name = some value ↔ (name, value) ∈ entries := by
  induction entries with
  | nil => simp
  | cons entry rest ih =>
      obtain ⟨first, kept⟩ := entry
      rw [List.map_cons, List.nodup_cons] at distinct
      rw [List.lookup_cons, List.mem_cons, ← ih distinct.2]
      by_cases isFirst : name = first
      · subst isFirst
        have notBelow : rest.lookup name ≠ some value := by
          intro found
          exact distinct.1
            (List.mem_map_of_mem ((ih distinct.2).mp found) : _ ∈ _)
        simp [notBelow, eq_comm]
      · simp [isFirst, beq_eq_false_iff_ne.mpr isFirst]

end Flowchart.Keyed
