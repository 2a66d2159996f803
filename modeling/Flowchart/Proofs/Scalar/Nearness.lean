import Flowchart.Proofs.Scalar.Exact
import Flowchart.Proofs.Scalar.Single

/-!
# Numbers near one another

Nearness is the one comparison that simplifying a path makes.  What holds of it in
both arithmetics is little: a finite number is near itself, and numbers that compare
equal are near the same numbers.  It is not transitive in either of them.
-/

namespace Flowchart

open Scalar

/-- Arithmetic in which nearness respects the equality of finite numbers. -/
class LawfulNear (α : Type) [Scalar α] : Prop where
  near_refl : ∀ {value : α}, isFinite value = true → near value value = true
  near_congr : ∀ (value : α) {left right : α}, isFinite left = true →
    (left == right) = true → near value left = near value right

instance : LawfulNear Rat where
  near_refl _ := near_self _
  near_congr value _ _ _ same := congrArg (near value) (eq_of_beq same)

namespace Single

open Float.Model Float.Model.UnpackedFloat

/-- The difference of two numbers, as the operation is carried out. -/
theorem sub_eq (left right : Float32) : left - right =
    ⟨Float32.Model.pack (UnpackedFloat.sub Format.binary32
      left.toModel.unpack right.toModel.unpack)⟩ := rfl

theorem sub_self_unpacked {number : UnpackedFloat}
    (finite : number.isFinite = true) :
    UnpackedFloat.sub Format.binary32 number number = .zero .positive := by
  cases number with
  | notANumber => cases finite
  | infinity sign => cases finite
  | zero sign => cases sign <;> rfl
  | finite sign mantissa exponent positive =>
      simp only [UnpackedFloat.sub, Int.sub_self, UnpackedFloat.normalize]
      rfl

theorem near_refl {value : Float32} (finite : value.isFinite = true) :
    near value value = true := by
  have zero : value - value = ⟨Float32.Model.pack (.zero .positive)⟩ := by
    rw [sub_eq, sub_self_unpacked finite]
  unfold near
  rw [zero]
  decide +kernel

/-- Taking away one zero or the other makes no difference to what is near. -/
theorem near_of_isZero (value : Float32) {left right : Float32}
    (leftZero : IsZero left) (rightZero : IsZero right) :
    near value left = near value right := by
  obtain ⟨sign, leftZero⟩ := leftZero
  obtain ⟨other, rightZero⟩ := rightZero
  unfold near
  rw [sub_eq, sub_eq, leftZero, rightZero]
  cases value.toModel.unpack with
  | notANumber => rfl
  | infinity first => rfl
  | finite first mantissa exponent positive => rfl
  | zero first => cases first <;> cases sign <;> cases other <;> decide +kernel

theorem near_congr (value : Float32) {left right : Float32}
    (finite : left.isFinite = true) (same : (left == right) = true) :
    near value left = near value right := by
  rcases eq_or_isZero_of_beq same finite with rfl | ⟨leftZero, rightZero⟩
  · rfl
  · exact near_of_isZero value leftZero rightZero

end Single

instance : LawfulNear Float32 where
  near_refl := Single.near_refl
  near_congr := Single.near_congr

end Flowchart
