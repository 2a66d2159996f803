import Flowchart.Geometry.Point
import Flowchart.Scalar
import Mathlib

/-!
# Single precision

Two finite numbers that compare equal are the same number, or both are zeros.
Either zero gives way to a number above zero, so that which of the two was asked
for makes no difference where a positive number is asked for as well.
-/

namespace Flowchart.Single

open Float.Model Float.Model.UnpackedFloat

/-! ## From bits to numbers -/

theorem toBitVec_ofBitVec (bit : BitVec 1) :
    (Sign.ofBitVec bit).toBitVec = bit := by
  rcases BitVec.eq_zero_or_eq_one bit with rfl | rfl <;> rfl

/-- The parts of a number are all there is to it. -/
theorem packComponents_unpack (bits : BitVec Format.binary32.numBits) :
    packComponents Format.binary32 (Sign.ofBitVec (unpackSign bits))
      (unpackExponent bits) (unpackMantissa bits) = bits := by
  simp only [packComponents, toBitVec_ofBitVec, unpackSign, unpackExponent,
    unpackMantissa, BitVec.extractLsb]
  ext index inside
  grind

/-- The mantissa and the exponent of a finite number other than zero tell the
bits that stand for them. -/
theorem bits_of_finite {bits : BitVec Format.binary32.numBits} {sign : Sign}
    {mantissa : Nat} {exponent : Int} {positive : 0 < mantissa}
    (isFinite : unpack Format.binary32 bits =
      .finite sign mantissa exponent positive) :
    Sign.ofBitVec (unpackSign bits) = sign ∧
      (unpackMantissa bits).toNat = mantissa % 2 ^ 23 ∧
      ((unpackExponent bits).toNat : Int) =
        if mantissa < 2 ^ 23 then 0 else exponent + 150 := by
  have bias : ((Format.binary32.exponentBias : Nat) : Int) = 127 := rfl
  have below : (unpackMantissa bits).toNat < 2 ^ 23 := (unpackMantissa bits).isLt
  unfold UnpackedFloat.unpack at isFinite
  dsimp only at isFinite
  split at isFinite
  · split at isFinite <;> cases isFinite
  · split at isFinite
    · rename_i isZero
      split at isFinite
      · cases isFinite
      · -- a subnormal number has the exponent bits zero
        cases isFinite
        refine ⟨rfl, (Nat.mod_eq_of_lt below).symm, ?_⟩
        rw [if_pos below, isZero]
        rfl
    · cases isFinite
      have leading : (1#1 ++ unpackMantissa bits).toNat =
          2 ^ 23 + (unpackMantissa bits).toNat := by
        rw [BitVec.toNat_append]
        exact (Nat.two_pow_add_eq_or_of_lt below 1).symm
      refine ⟨rfl, ?_, ?_⟩
      · rw [leading, Nat.add_mod_left, Nat.mod_eq_of_lt below]
      · rw [if_neg (by rw [leading]; omega)]
        omega

theorem unpack_injective {left right : BitVec Format.binary32.numBits}
    {sign : Sign} {mantissa : Nat} {exponent : Int} {positive : 0 < mantissa}
    (isLeft : unpack Format.binary32 left =
      .finite sign mantissa exponent positive)
    (isRight : unpack Format.binary32 right =
      .finite sign mantissa exponent positive) : left = right := by
  obtain ⟨leftSign, leftMantissa, leftExponent⟩ := bits_of_finite isLeft
  obtain ⟨rightSign, rightMantissa, rightExponent⟩ := bits_of_finite isRight
  have sameMantissa : unpackMantissa left = unpackMantissa right :=
    BitVec.eq_of_toNat_eq (leftMantissa.trans rightMantissa.symm)
  have sameExponent : unpackExponent left = unpackExponent right :=
    BitVec.eq_of_toNat_eq
      (Int.ofNat_inj.mp (leftExponent.trans rightExponent.symm))
  rw [← packComponents_unpack left, ← packComponents_unpack right, leftSign,
    rightSign, sameMantissa, sameExponent]

/-! ## Numbers that compare equal -/

def IsZero (value : Float32) : Prop :=
  ∃ sign, value.toModel.unpack = .zero sign

/-- Greater than either zero, and finite. -/
def IsPositive (value : Float32) : Prop :=
  ∃ mantissa exponent positive,
    value.toModel.unpack = .finite .positive mantissa exponent positive

theorem compare_eq_eq {left right : UnpackedFloat}
    (same : left.compare right = some .eq) (finite : left.isFinite = true) :
    (∃ sign other, left = .zero sign ∧ right = .zero other) ∨
      ∃ sign mantissa exponent positive,
        left = .finite sign mantissa exponent positive ∧
          right = .finite sign mantissa exponent positive := by
  cases left with
  | notANumber => cases finite
  | infinity sign => cases finite
  | zero sign =>
      cases right with
      | notANumber => cases same
      | zero other => exact .inl ⟨sign, other, rfl, rfl⟩
      | infinity other => cases other <;> cases same
      | finite other mantissa exponent positive => cases other <;> cases same
  | finite sign mantissa exponent positive =>
      refine .inr ⟨sign, mantissa, exponent, positive, rfl, ?_⟩
      cases right with
      | notANumber => cases sign <;> cases same
      | zero other => cases sign <;> cases same
      | infinity other => cases sign <;> cases other <;> cases same
      | finite other otherMantissa otherExponent otherPositive =>
          have lexicographic : sign = other ∧ exponent = otherExponent ∧
              mantissa = otherMantissa := by
            cases sign <;> cases other <;>
              simp_all [UnpackedFloat.compare, Ordering.swap_eq_eq, Ordering.then_eq_eq]
          obtain ⟨rfl, rfl, rfl⟩ := lexicographic
          rfl

theorem eq_or_isZero_of_beq {left right : Float32} (same : (left == right) = true)
    (finite : left.isFinite = true) :
    left = right ∨ IsZero left ∧ IsZero right := by
  have equal : left.toModel.unpack.compare right.toModel.unpack = some .eq :=
    beq_iff_eq.mp same
  rcases compare_eq_eq equal finite with
    ⟨sign, other, leftZero, rightZero⟩ |
      ⟨sign, mantissa, exponent, positive, isLeft, isRight⟩
  · exact .inr ⟨⟨sign, leftZero⟩, ⟨other, rightZero⟩⟩
  · have bits : left.toModel.toBits.toBitVec = right.toModel.toBits.toBitVec :=
      unpack_injective isLeft isRight
    refine .inl ?_
    obtain ⟨⟨leftBits, _⟩⟩ := left
    obtain ⟨⟨rightBits, _⟩⟩ := right
    cases UInt32.toBitVec_inj.mp bits
    rfl

/-- A finite number compares equal to itself. -/
theorem beq_self {value : Float32} (finite : value.isFinite = true) :
    (value == value) = true := by
  have isFinite : value.toModel.unpack.isFinite = true := finite
  have equal : value.toModel.unpack.compare value.toModel.unpack = some .eq := by
    generalize value.toModel.unpack = unpacked at isFinite ⊢
    cases unpacked with
    | notANumber => cases isFinite
    | infinity sign => cases isFinite
    | zero sign => rfl
    | finite sign mantissa exponent positive =>
        cases sign <;> simp [UnpackedFloat.compare]
  have same : (value.toModel.unpack.compare value.toModel.unpack ==
      some .eq) = true := beq_iff_eq.mpr equal
  exact same

/-- A number that compares equal to some number is defined. -/
theorem defined_of_beq {left right : Float32} (same : (left == right) = true) :
    Scalar.isUndefined right = false := by
  have notNan : right ≠ Float32.nan := by
    rintro rfl
    rw [Float32.beq_nan_eq_false] at same
    cases same
  have isDefined : right.isNaN = false := by
    rw [Float32.isNaN_eq_decide_eq_nan]
    exact decide_eq_false notNan
  exact isDefined

/-- Only an undefined number is not equal to itself. -/
theorem beq_self_of_defined {value : Float32}
    (isDefined : Scalar.isUndefined value = false) : (value == value) = true := by
  refine Float32.beq_self_iff.mpr ?_
  rintro rfl
  exact absurd isDefined (by decide +kernel)

theorem isPositive {value : Float32} (finite : value.isFinite = true)
    (above : ¬ value ≤ (Scalar.zero : Float32)) : IsPositive value := by
  have zero_unpack : (Scalar.zero : Float32).toModel.unpack =
    .zero .positive := by rfl
  have notLe : value.toModel.unpack.le (.zero .positive) ≠ true := by
    rw [← zero_unpack]
    exact fun passed => above (decide_eq_true passed)
  have isFinite : value.toModel.unpack.isFinite = true := finite
  unfold IsPositive
  generalize value.toModel.unpack = unpacked at notLe isFinite ⊢
  cases unpacked with
  | notANumber => cases isFinite
  | infinity sign => cases isFinite
  | zero sign => exact absurd rfl notLe
  | finite sign mantissa exponent positive =>
      cases sign with
      | negative => exact absurd rfl notLe
      | positive => exact ⟨mantissa, exponent, positive, rfl⟩

theorem larger_of_isZero {value bound : Float32} (isZero : IsZero value)
    (positive : IsPositive bound) : Scalar.larger value bound = bound := by
  obtain ⟨sign, isZero⟩ := isZero
  obtain ⟨mantissa, exponent, positive, isBound⟩ := positive
  have less : value < bound := by
    refine decide_eq_true (?_ : value.toModel.unpack.lt _ = true)
    rw [isZero, isBound]
    rfl
  unfold Scalar.larger
  rw [if_pos less, ite_self]

theorem larger_eq_of_beq {left right least : Float32}
    (same : (left == right) = true) (finite : left.isFinite = true)
    (positive : IsPositive least) :
    Scalar.larger left least = Scalar.larger right least := by
  rcases eq_or_isZero_of_beq same finite with rfl | ⟨leftZero, rightZero⟩
  · rfl
  · rw [larger_of_isZero leftZero positive, larger_of_isZero rightZero positive]

end Flowchart.Single
