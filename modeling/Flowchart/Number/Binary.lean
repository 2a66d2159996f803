/-!
Binary interchange formats: which bits stand for the value nearest to a
fraction, and which fraction some bits stand for.  Both directions work on
natural numbers only.
-/

namespace Flowchart.Number

def twoTo (exponent : Nat) : Nat := Nat.pow 2 exponent

def tenTo (exponent : Nat) : Nat := Nat.pow 10 exponent

/-- A binary format is fixed by the widths of its two fields; the sign is kept
apart from the magnitude everywhere below. -/
structure BinaryFormat where
  fractionBits : Nat
  exponentBits : Nat
deriving DecidableEq, Repr

namespace BinaryFormat

/-- Thirty-two bits in all. -/
def single : BinaryFormat := ⟨23, 8⟩

/-- Sixty-four bits in all. -/
def double : BinaryFormat := ⟨52, 11⟩

/-- The spacing of the values next to zero is two to this power. -/
def leastExponent (format : BinaryFormat) : Int :=
  2 - twoTo (format.exponentBits - 1) - format.fractionBits

/-- The magnitude bits of infinity. -/
def infinityBits (format : BinaryFormat) : Nat :=
  (twoTo format.exponentBits - 1) * twoTo format.fractionBits

end BinaryFormat

/-- The nearest natural number to `numerator / denominator`; a half goes to the
even neighbour. -/
def roundHalfEven (numerator denominator : Nat) : Nat :=
  let quotient := numerator / denominator
  let twiceRemainder := 2 * (numerator % denominator)
  if twiceRemainder < denominator then quotient
  else if denominator < twiceRemainder then quotient + 1
  else quotient + quotient % 2

/-- `numerator / denominator` divided by two to the power `exponent`, as a
fraction again. -/
def unscale (numerator denominator : Nat) (exponent : Int) : Nat × Nat :=
  if 0 ≤ exponent then (numerator, denominator * twoTo exponent.toNat)
  else (numerator * twoTo (-exponent).toNat, denominator)

namespace BinaryFormat

/-- The power of two that the last significant bit of a positive fraction is
worth in this format. -/
def lastBitExponent (format : BinaryFormat)
    (numerator denominator : Nat) : Int :=
  let guess : Int :=
    (Nat.log2 numerator : Int) - Nat.log2 denominator - format.fractionBits
  let (scaled, unit) := unscale numerator denominator guess
  let exponent :=
    if scaled < unit * twoTo format.fractionBits then guess - 1 else guess
  max exponent format.leastExponent

/-- The magnitude bits of the value nearest to a non-negative fraction.  A
rounding that carries into the next power of two carries into the exponent
field by itself. -/
def encode (format : BinaryFormat) (numerator denominator : Nat) : Nat :=
  if numerator = 0 then 0
  else
    let exponent := format.lastBitExponent numerator denominator
    let (scaled, unit) := unscale numerator denominator exponent
    let steps := (exponent - format.leastExponent).toNat
    let bits := steps * twoTo format.fractionBits + roundHalfEven scaled unit
    min bits format.infinityBits

/-- The finite value that magnitude bits stand for, as an integer
significand and a power of two. -/
def decode (format : BinaryFormat) (bits : Nat) : Nat × Int :=
  let field := bits / twoTo format.fractionBits
  let fraction := bits % twoTo format.fractionBits
  if field = 0 then (fraction, format.leastExponent)
  else
    (twoTo format.fractionBits + fraction,
      format.leastExponent + (field - 1 : Nat))

end BinaryFormat

end Flowchart.Number
