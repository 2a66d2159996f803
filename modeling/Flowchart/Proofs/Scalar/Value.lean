import Flowchart.Proofs.Scalar.Single

/-!
# What single precision numbers stand for

A finite number stands for a mantissa times a power of two.  Mantissas are filled
up to their leading bit, so that numbers are compared by their exponents first; this
is the order of what they stand for.
-/

namespace Flowchart.Single

open Float.Model Float.Model.UnpackedFloat

/-- What a number stands for, given in its parts.  It is zero for what is not
finite. -/
def unpackedValue : UnpackedFloat → Rat
  | .finite .positive mantissa exponent _ => mantissa * 2 ^ exponent
  | .finite .negative mantissa exponent _ => -(mantissa * 2 ^ exponent)
  | .zero _ | .infinity _ | .notANumber => 0

/-- The rational number that a finite number stands for. -/
def value (number : Float32) : Rat := unpackedValue number.toModel.unpack

/-! ## Mantissas and exponents -/

/-- The mantissa is filled up, unless the exponent is the least one. -/
structure Canonical (mantissa : Nat) (exponent : Int) : Prop where
  mantissa_lt : mantissa < 2 ^ 24
  low : -149 ≤ exponent
  high : exponent ≤ 104
  filled : 2 ^ 23 ≤ mantissa ∨ exponent = -149

theorem canonical_of_unpack {bits : BitVec Format.binary32.numBits} {sign : Sign}
    {mantissa : Nat} {exponent : Int} {positive : 0 < mantissa}
    (isFinite : unpack Format.binary32 bits =
      .finite sign mantissa exponent positive) : Canonical mantissa exponent := by
  have bias : ((Format.binary32.exponentBias : Nat) : Int) = 127 := rfl
  have width : ((Format.binary32.mantissaBitsWithoutImplicit : Nat) : Int) = 23 := rfl
  have below : (unpackMantissa bits).toNat < 2 ^ 23 := (unpackMantissa bits).isLt
  have exponentBelow : (unpackExponent bits).toNat < 2 ^ 8 := (unpackExponent bits).isLt
  unfold UnpackedFloat.unpack at isFinite
  dsimp only at isFinite
  split at isFinite
  · split at isFinite <;> cases isFinite
  · rename_i notGreatest
    have notFull : (unpackExponent bits).toNat ≠ 255 := fun isFull =>
      notGreatest (BitVec.eq_of_toNat_eq isFull)
    split at isFinite
    · rename_i isLeast
      split at isFinite
      · cases isFinite
      · cases isFinite
        have noExponent : (unpackExponent bits).toNat = 0 := by
          rw [isLeast]
          rfl
        exact ⟨by omega, by omega, by omega, .inr (by omega)⟩
    · rename_i notLeast
      have notZero : (unpackExponent bits).toNat ≠ 0 := fun isZero =>
        notLeast (BitVec.eq_of_toNat_eq isZero)
      cases isFinite
      have leading : (1#1 ++ unpackMantissa bits).toNat =
          2 ^ 23 + (unpackMantissa bits).toNat := by
        rw [BitVec.toNat_append]
        exact (Nat.two_pow_add_eq_or_of_lt below 1).symm
      rw [leading]
      exact ⟨by omega, by omega, by omega, .inl (by omega)⟩

/-- Of two numbers the one with the greater exponent is greater. -/
theorem Canonical.lt_of_exponent_lt {mantissa other : Nat} {exponent further : Int}
    (first : Canonical mantissa exponent) (second : Canonical other further)
    (less : exponent < further) :
    (mantissa : Rat) * 2 ^ exponent < other * 2 ^ further := by
  have positive : (0 : Rat) < 2 ^ exponent := zpow_pos (by norm_num) _
  have filled : 2 ^ 23 ≤ other := by
    rcases second.filled with filled | isLeast
    · exact filled
    · have low := first.low
      omega
  have mantissaLt : (mantissa : Rat) < 2 ^ 24 := by exact_mod_cast first.mantissa_lt
  have otherLe : (2 ^ 23 : Rat) ≤ other := by exact_mod_cast filled
  have step : (2 : Rat) ^ exponent * 2 ≤ 2 ^ further := by
    rw [← zpow_add_one₀ (by norm_num)]
    exact zpow_le_zpow_right₀ (by norm_num) less
  calc (mantissa : Rat) * 2 ^ exponent
      < 2 ^ 24 * 2 ^ exponent := by gcongr
    _ = 2 ^ 23 * (2 ^ exponent * 2) := by ring
    _ ≤ other * 2 ^ further := by gcongr

theorem Canonical.le_of_lexicographic {mantissa other : Nat} {exponent further : Int}
    (first : Canonical mantissa exponent) (second : Canonical other further)
    (le : ((compare exponent further).then (compare mantissa other)).isLE = true) :
    (mantissa : Rat) * 2 ^ exponent ≤ other * 2 ^ further := by
  rcases lt_trichotomy exponent further with less | rfl | greater
  · exact (first.lt_of_exponent_lt second less).le
  · have mantissaLe : mantissa ≤ other := by
      simpa [Nat.isLE_compare] using le
    gcongr
  · have isGreater : compare exponent further = .gt := Int.compare_eq_gt.mpr greater
    rw [isGreater] at le
    cases le

/-! ## The order -/

/-- Finite, with the mantissa filled up. -/
def IsCanonical : UnpackedFloat → Prop
  | .finite _ mantissa exponent _ => Canonical mantissa exponent
  | .zero _ => True
  | .infinity _ | .notANumber => False

theorem isCanonical {number : Float32} (finite : number.isFinite = true) :
    IsCanonical number.toModel.unpack := by
  have isFinite : number.toModel.unpack.isFinite = true := finite
  cases unpacked : number.toModel.unpack with
  | notANumber | infinity sign =>
      rw [unpacked] at isFinite
      cases isFinite
  | zero sign => trivial
  | finite sign mantissa exponent positive => exact canonical_of_unpack unpacked

theorem magnitude_pos {mantissa : Nat} (exponent : Int) (positive : 0 < mantissa) :
    (0 : Rat) < mantissa * 2 ^ exponent := by
  positivity

theorem unpackedValue_le {left right : UnpackedFloat} (first : IsCanonical left)
    (second : IsCanonical right) (le : left.le right = true) :
    unpackedValue left ≤ unpackedValue right := by
  cases left with
  | notANumber | infinity sign => cases first
  | zero sign =>
      cases right with
      | notANumber | infinity other => cases second
      | zero other => rfl
      | finite other mantissa exponent positive =>
          cases other with
          | positive => exact (magnitude_pos exponent positive).le
          | negative => cases le
  | finite sign mantissa exponent positive =>
      have magnitude := magnitude_pos exponent positive
      cases right with
      | notANumber | infinity other => cases second
      | zero other =>
          cases sign with
          | positive => cases le
          | negative => exact neg_nonpos.mpr magnitude.le
      | finite other further distance present =>
          have otherMagnitude := magnitude_pos distance present
          cases sign with
          | positive =>
              cases other with
              | positive => exact Canonical.le_of_lexicographic first second le
              | negative => cases le
          | negative =>
              cases other with
              | positive => exact (neg_lt_zero.mpr magnitude).le.trans otherMagnitude.le
              | negative =>
                  -- of two negative numbers the one further from zero is less
                  have swapped : ((compare exponent distance).then
                      (compare mantissa further)).swap =
                        (compare distance exponent).then (compare further mantissa) := by
                    rw [Ordering.swap_then, Int.compare_swap, Nat.compare_swap]
                  have isLe : ((compare exponent distance).then
                      (compare mantissa further)).swap.isLE = true := le
                  rw [swapped] at isLe
                  exact neg_le_neg (Canonical.le_of_lexicographic second first isLe)

variable {left right number : Float32}

/-- The order of finite numbers is that of what they stand for. -/
theorem value_le_value (first : left.isFinite = true) (second : right.isFinite = true)
    (le : left ≤ right) : value left ≤ value right :=
  unpackedValue_le (isCanonical first) (isCanonical second) (of_decide_eq_true le)

theorem value_pos (finite : number.isFinite = true)
    (above : ¬ number ≤ (Scalar.zero : Float32)) : 0 < value number := by
  obtain ⟨mantissa, exponent, positive, isNumber⟩ := isPositive finite above
  unfold value
  rw [isNumber]
  exact magnitude_pos exponent positive

theorem value_nonneg (notBelow : ¬ number < (Scalar.zero : Float32)) :
    0 ≤ value number := by
  have zero_unpack : (Scalar.zero : Float32).toModel.unpack = .zero .positive := by rfl
  have notLt : number.toModel.unpack.lt (.zero .positive) ≠ true := by
    rw [← zero_unpack]
    exact fun below => notBelow (decide_eq_true below)
  unfold value
  cases unpacked : number.toModel.unpack with
  | notANumber | infinity sign | zero sign => exact le_refl 0
  | finite sign mantissa exponent positive =>
      rw [unpacked] at notLt
      cases sign with
      | positive => exact (magnitude_pos exponent positive).le
      | negative => exact absurd rfl notLt

/-! ## The greatest number -/

/-- The greatest finite number, of which all bits but two are set. -/
def greatest : Float32 := .ofBits 0x7F7FFFFF

theorem value_greatest : value greatest = (2 ^ 24 - 1) * 2 ^ 104 := by
  decide +kernel

theorem value_le_greatest (number : Float32) : value number ≤ value greatest := by
  rw [value_greatest]
  unfold value
  cases unpacked : number.toModel.unpack with
  | notANumber | infinity sign | zero sign => norm_num [unpackedValue]
  | finite sign mantissa exponent positive =>
      have canonical := canonical_of_unpack unpacked
      have magnitude := magnitude_pos exponent positive
      cases sign with
      | negative => exact (neg_lt_zero.mpr magnitude).le.trans (by norm_num)
      | positive =>
          have mantissaLe : (mantissa : Rat) ≤ 2 ^ 24 - 1 := by
            have next : ((mantissa + 1 : Nat) : Rat) ≤ 2 ^ 24 := by
              exact_mod_cast canonical.mantissa_lt
            push_cast at next
            linarith
          have power : (2 : Rat) ^ exponent ≤ 2 ^ (104 : Int) :=
            zpow_le_zpow_right₀ (by norm_num) canonical.high
          calc (mantissa : Rat) * 2 ^ exponent
              ≤ (2 ^ 24 - 1) * 2 ^ (104 : Int) := by gcongr
            _ = (2 ^ 24 - 1) * 2 ^ 104 := by norm_cast

end Flowchart.Single
