import Flowchart.Layout.Arrangement
import Flowchart.Proofs.Geometry.Rect

/-!
# Nodes one after another

The tops of the members of a column and the left edges of the arms in a row:
each node starts where the one before ends, and a gap further.
-/

namespace Flowchart

open Scalar

/-- Where things start that are put one after another with a gap after each. -/
def tiles (gap : Rat) : Rat → List Rat → List Rat
  | _, [] => []
  | start, extent :: rest => start :: tiles gap (start + (extent + gap)) rest

/-- Where they end, the last gap included. -/
def tilesEnd (gap : Rat) : Rat → List Rat → Rat
  | start, [] => start
  | start, extent :: rest => tilesEnd gap (start + (extent + gap)) rest

variable {gap start : Rat} {extents : List Rat}

@[simp]
theorem length_tiles (gap start : Rat) (extents : List Rat) :
    (tiles gap start extents).length = extents.length := by
  induction extents generalizing start with
  | nil => rfl
  | cons extent rest ih => simp [tiles, ih]

theorem tilesEnd_eq (gap start : Rat) (extents : List Rat) :
    tilesEnd gap start extents = start + extents.sum + extents.length * gap := by
  induction extents generalizing start with
  | nil => simp [tilesEnd]
  | cons extent rest ih =>
      rw [tilesEnd, ih, List.sum_cons, List.length_cons]
      push_cast
      ring

theorem le_tilesEnd (gapped : 0 ≤ gap) (sound : ∀ extent ∈ extents, 0 ≤ extent)
    (start : Rat) : start ≤ tilesEnd gap start extents := by
  have total : 0 ≤ extents.sum := List.sum_nonneg sound
  have gaps : 0 ≤ (extents.length : Rat) * gap :=
    mul_nonneg (Nat.cast_nonneg _) gapped
  rw [tilesEnd_eq]
  linarith

theorem tiles_bounds (gapped : 0 ≤ gap) (sound : ∀ extent ∈ extents, 0 ≤ extent)
    {index : Nat} {position extent : Rat}
    (isPosition : (tiles gap start extents)[index]? = some position)
    (isExtent : extents[index]? = some extent) :
    start ≤ position ∧ position + extent + gap ≤ tilesEnd gap start extents := by
  induction extents generalizing start index with
  | nil => simp at isExtent
  | cons first rest ih =>
      have restSound : ∀ extent ∈ rest, 0 ≤ extent :=
        fun extent extentIn => sound extent (List.mem_cons_of_mem _ extentIn)
      have firstSound := sound first List.mem_cons_self
      cases index with
      | zero =>
          obtain rfl : start = position := by simpa [tiles] using isPosition
          obtain rfl : first = extent := by simpa using isExtent
          have ends := le_tilesEnd gapped restSound (start + (first + gap))
          exact ⟨le_refl _, by rw [tilesEnd]; linarith⟩
      | succ index =>
          obtain ⟨above, below⟩ := ih restSound
            (by simpa [tiles] using isPosition) (by simpa using isExtent)
          exact ⟨by linarith, below⟩

/-- Things that come earlier end before later ones start. -/
theorem tiles_ordered (gapped : 0 ≤ gap)
    (sound : ∀ extent ∈ extents, 0 ≤ extent) {index later : Nat}
    {position extent next : Rat} (isBefore : index < later)
    (isPosition : (tiles gap start extents)[index]? = some position)
    (isExtent : extents[index]? = some extent)
    (isNext : (tiles gap start extents)[later]? = some next) :
    position + extent + gap ≤ next := by
  induction extents generalizing start index later with
  | nil => simp at isExtent
  | cons first rest ih =>
      have restSound : ∀ extent ∈ rest, 0 ≤ extent :=
        fun extent extentIn => sound extent (List.mem_cons_of_mem _ extentIn)
      obtain ⟨later, rfl⟩ := Nat.exists_eq_add_one_of_ne_zero
        (Nat.ne_zero_of_lt isBefore)
      have nextAfter : (tiles gap (start + (first + gap)) rest)[later]? =
          some next := by simpa [tiles] using isNext
      cases index with
      | zero =>
          obtain rfl : start = position := by simpa [tiles] using isPosition
          obtain rfl : first = extent := by simpa using isExtent
          obtain ⟨inside, -⟩ := List.getElem?_eq_some_iff.mp nextAfter
          rw [length_tiles] at inside
          obtain ⟨above, -⟩ := tiles_bounds gapped restSound nextAfter
            (List.getElem?_eq_getElem inside)
          linarith
      | succ index =>
          exact ih restSound (Nat.lt_of_succ_lt_succ isBefore)
            (by simpa [tiles] using isPosition)
            (by simpa using isExtent) nextAfter

/-- Each thing starts a gap after the one before. -/
theorem tiles_next {index : Nat} {position extent next : Rat}
    (isPosition : (tiles gap start extents)[index]? = some position)
    (isExtent : extents[index]? = some extent)
    (isNext : (tiles gap start extents)[index + 1]? = some next) :
    position + extent + gap = next := by
  induction extents generalizing start index with
  | nil => simp at isExtent
  | cons first rest ih =>
      cases index with
      | zero =>
          obtain rfl : start = position := by simpa [tiles] using isPosition
          obtain rfl : first = extent := by simpa using isExtent
          cases rest with
          | nil => simp [tiles] at isNext
          | cons second rest =>
              obtain rfl : start + (first + gap) = next := by
                simpa [tiles] using isNext
              ring
      | succ index =>
          exact ih (by simpa [tiles] using isPosition)
            (by simpa using isExtent) (by simpa [tiles] using isNext)

/-- The last thing ends where all of them do. -/
theorem tiles_last {position extent : Rat}
    (isPosition : (tiles gap start extents).getLast? = some position)
    (isExtent : extents.getLast? = some extent) :
    position + extent + gap = tilesEnd gap start extents := by
  induction extents generalizing start with
  | nil => simp at isExtent
  | cons first rest ih =>
      cases rest with
      | nil =>
          obtain rfl : start = position := by simpa [tiles] using isPosition
          obtain rfl : first = extent := by simpa using isExtent
          simp only [tilesEnd]
          ring
      | cons second rest =>
          rw [List.getLast?_cons_cons] at isExtent
          exact ih (by simpa [tiles, List.getLast?_cons_cons] using isPosition)
            isExtent

/-! ## Columns and rows -/

namespace Frame

theorem stackTops_eq (gap top : Rat) (frames : List (Frame Rat)) :
    stackTops gap top frames =
      tiles gap top (frames.map fun frame => frame.size.height) := by
  induction frames generalizing top with
  | nil => rfl
  | cons frame rest ih => simp [stackTops, tiles, ih]

theorem stackEnd_eq (gap top : Rat) (frames : List (Frame Rat)) :
    stackEnd gap top frames =
      tilesEnd gap top (frames.map fun frame => frame.size.height) := by
  induction frames generalizing top with
  | nil => rfl
  | cons frame rest ih =>
      rw [stackEnd, List.foldl_cons, List.map_cons, tilesEnd, ← ih]
      rfl

theorem rowLefts_eq (gap left : Rat) (frames : List (Frame Rat)) :
    rowLefts gap left frames =
      tiles gap left (frames.map fun frame => frame.size.width) := by
  induction frames generalizing left with
  | nil => rfl
  | cons frame rest ih => simp [rowLefts, tiles, ih]

/-- A row is as wide as its arms and the gaps between them. -/
theorem rowWidth_eq {gap : Rat} {frames : List (Frame Rat)}
    (filled : frames ≠ []) (left : Rat) :
    left + rowWidth gap frames + gap =
      tilesEnd gap left (frames.map fun frame => frame.size.width) := by
  have positive : 1 ≤ frames.length := List.length_pos_of_ne_nil filled
  have gaps : larger ((ofNat frames.length : Rat) - ofNat 1) zero =
      (frames.length : Rat) - 1 := by
    rw [larger_exact]
    refine max_eq_left ?_
    have cast : (1 : Rat) ≤ frames.length := by exact_mod_cast positive
    change (0 : Rat) ≤ (frames.length : Rat) - ((1 : Nat) : Rat)
    push_cast
    linarith
  rw [tilesEnd_eq, rowWidth, sum_exact, gaps, List.length_map]
  change left + (_ + gap * (_ - 1)) + gap = _
  ring

end Frame

end Flowchart
