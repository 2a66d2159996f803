/-!
The arithmetic that coordinates are computed with.

Geometry, layout and routing are written once over this class.  They run on
single precision numbers; the instance for rational numbers is the arithmetic
without rounding.
-/

namespace Flowchart

/-- Numbers that serve as coordinates.  No law is asked for: sums may round and
some values need not be numbers at all. -/
class Scalar (α : Type) extends
    Add α, Sub α, Mul α, Div α, Neg α, LE α, LT α, BEq α where
  decidableLe : DecidableLE α
  decidableLt : DecidableLT α
  ofNat : Nat → α
  /-- Neither infinite nor undefined. -/
  isFinite : α → Bool
  /-- Undefined values are not equal to themselves and are never compared. -/
  isUndefined : α → Bool
  /-- Coordinates this close count as equal. -/
  tolerance : α

namespace Scalar

variable {α : Type} [Scalar α]

instance : DecidableLE α := decidableLe

instance : DecidableLT α := decidableLt

instance : Inhabited α := ⟨ofNat 0⟩

def zero : α := ofNat 0

/-- Half of a number. -/
def half (value : α) : α := value / ofNat 2

/-- The distance from zero. -/
def magnitude (value : α) : α := if value < zero then -value else value

/-- Whether two coordinates are equal within the tolerance. -/
def near (left right : α) : Bool := magnitude (left - right) ≤ tolerance

/-- The larger number; an undefined operand gives way to the other one. -/
def larger (left right : α) : α :=
  if isUndefined left then right
  else if left < right then right
  else left

/-- The smaller number; an undefined operand gives way to the other one. -/
def smaller (left right : α) : α :=
  if isUndefined left then right
  else if right < left then right
  else left

/-- The closest number to `value` between `low` and `high`. -/
def clamp (low high value : α) : α :=
  if value < low then low
  else if high < value then high
  else value

/-- The largest of `start` and the numbers of a list, taken from the left. -/
def largest (start : α) (values : List α) : α := values.foldl larger start

/-- The sum of a list from the left.  It starts from minus zero, the number
that changes no other when it is added. -/
def sum (values : List α) : α := values.foldl (· + ·) (-zero)

end Scalar

/-- Single precision, rounding after every operation. -/
instance : Scalar Float32 where
  decidableLe := inferInstance
  decidableLt := inferInstance
  ofNat := Float32.ofNat
  isFinite := Float32.isFinite
  isUndefined := Float32.isNaN
  tolerance := 0.001

/-- Exact arithmetic. -/
instance : Scalar Rat where
  decidableLe := inferInstance
  decidableLt := inferInstance
  ofNat := fun value => (value : Rat)
  isFinite := fun _ => true
  isUndefined := fun _ => false
  tolerance := 1 / 1000

end Flowchart
