import Flowchart.Scalar
import Mathlib

/-!
# Exact arithmetic

Over the rational numbers the operations on coordinates are the ones they are
named for.
-/

namespace Flowchart.Scalar

theorem tolerance_exact : (tolerance : Rat) = 1 / 1000 := rfl

theorem half_exact (value : Rat) : half value = value / 2 := rfl

theorem larger_exact (left right : Rat) : larger left right = max left right := by
  change (if left < right then right else left) = max left right
  rw [max_def_lt]

theorem magnitude_exact (value : Rat) : magnitude value = |value| := by
  change (if value < 0 then -value else value) = |value|
  split
  · exact (abs_of_neg ‹value < 0›).symm
  · exact (abs_of_nonneg (not_lt.mp ‹¬ value < 0›)).symm

theorem near_iff {left right : Rat} :
    near left right = true ↔
      left - right ≤ 1 / 1000 ∧ right - left ≤ 1 / 1000 := by
  have near_eq : near left right = decide (|left - right| ≤ 1 / 1000) := by
    change decide (magnitude (left - right) ≤ 1 / 1000) = _
    rw [magnitude_exact]
  rw [near_eq, decide_eq_true_iff, abs_le']
  simp

@[simp]
theorem near_self (value : Rat) : near value value = true :=
  near_iff.mpr ⟨by linarith, by linarith⟩

/-! ## Lists of numbers -/

theorem le_largest_start (start : Rat) (values : List Rat) :
    start ≤ largest start values := by
  induction values generalizing start with
  | nil => exact le_refl start
  | cons value rest ih =>
      have step : start ≤ larger start value := by
        rw [larger_exact]
        exact le_max_left _ _
      exact step.trans (ih (larger start value))

theorem le_largest (start : Rat) {values : List Rat} {value : Rat}
    (valueIn : value ∈ values) : value ≤ largest start values := by
  induction values generalizing start with
  | nil => cases valueIn
  | cons first rest ih =>
      rcases List.mem_cons.mp valueIn with rfl | inRest
      · have step : value ≤ larger start value := by
          rw [larger_exact]
          exact le_max_right _ _
        exact step.trans (le_largest_start _ rest)
      · exact ih (larger start first) inRest

theorem largest_le_sum {start : Rat} (above : 0 ≤ start) {values : List Rat}
    (nonneg : ∀ value ∈ values, 0 ≤ value) :
    largest start values ≤ start + values.sum := by
  induction values generalizing start with
  | nil => exact (add_zero start).ge
  | cons value rest ih =>
      have largerNonneg : 0 ≤ larger start value := by
        rw [larger_exact]
        exact le_max_of_le_left above
      have largerLe : larger start value ≤ start + value := by
        rw [larger_exact]
        exact max_le_add_of_nonneg above (nonneg value List.mem_cons_self)
      have step : largest (larger start value) rest ≤ larger start value + rest.sum :=
        ih largerNonneg fun other otherIn =>
          nonneg other (List.mem_cons_of_mem _ otherIn)
      rw [List.sum_cons]
      calc largest start (value :: rest)
          ≤ larger start value + rest.sum := step
        _ ≤ start + (value + rest.sum) := by linarith

theorem sum_exact (values : List Rat) : sum values = values.sum := by
  change values.foldl (· + ·) (-0) = values.sum
  rw [neg_zero]
  exact (List.sum_eq_foldl).symm

end Flowchart.Scalar
