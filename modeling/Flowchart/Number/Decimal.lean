import Flowchart.Number.Binary

/-!
Decimal numbers as they are written, and the binary value nearest to each.
-/

namespace Flowchart.Number

/-- The decimal number `digits · 10 ^ exponent` with a sign of its own, so that
a negative zero can be told from zero. -/
structure Decimal where
  negative : Bool
  digits : Nat
  exponent : Int
deriving DecidableEq, Repr, Inhabited

namespace Decimal

def ofNat (value : Nat) : Decimal := ⟨false, value, 0⟩

def ofInt (value : Int) : Decimal := ⟨decide (value < 0), value.natAbs, 0⟩

/-- The value of a run of ASCII decimal digits. -/
def digitsValue (text : List Char) : Nat :=
  text.foldl (fun value digit => value * 10 + (digit.toNat - '0'.toNat)) 0

/-- Reads `[+-]? digits`, with at least one digit and nothing after. -/
def readExponent? (text : List Char) : Option Int :=
  let (negative, digits) :=
    match text with
    | '-' :: rest => (true, rest)
    | '+' :: rest => (false, rest)
    | _ => (false, text)
  if digits.isEmpty || !digits.all Char.isDigit then none
  else
    let value : Int := digitsValue digits
    some (if negative then -value else value)

/-- Reads a number without its sign: digits, a point and digits, and an
exponent, where the point and the exponent may be missing and one digit on
either side of the point is enough. -/
def readUnsigned? (negative : Bool) (text : List Char) : Option Decimal :=
  let whole := text.takeWhile Char.isDigit
  let afterWhole := text.dropWhile Char.isDigit
  let (fraction, afterFraction) :=
    match afterWhole with
    | '.' :: rest => (rest.takeWhile Char.isDigit, rest.dropWhile Char.isDigit)
    | _ => ([], afterWhole)
  if whole.isEmpty && fraction.isEmpty then none
  else
    let exponent? :=
      match afterFraction with
      | [] => some 0
      | mark :: rest =>
          if mark = 'e' || mark = 'E' then readExponent? rest else none
    exponent?.map fun exponent =>
      ⟨negative, digitsValue (whole ++ fraction), exponent - fraction.length⟩

/-- Reads a number with an optional sign. -/
def read? (text : List Char) : Option Decimal :=
  match text with
  | '-' :: rest => readUnsigned? true rest
  | '+' :: rest => readUnsigned? false rest
  | _ => readUnsigned? false text

/-- Every finite value of both formats lies between ten to this power and its
reciprocal, so that a number beyond is infinite or zero whatever its digits. -/
def extremePower : Int := 400

/-- The magnitude bits of the value nearest to a decimal number. -/
def encode (format : BinaryFormat) (number : Decimal) : Nat :=
  let top := number.exponent + (Nat.toDigits 10 number.digits).length
  if number.digits = 0 || top < -extremePower then 0
  else if extremePower < top then format.infinityBits
  else if 0 ≤ number.exponent then
    format.encode (number.digits * tenTo number.exponent.toNat) 1
  else format.encode number.digits (tenTo (-number.exponent).toNat)

/-- The nearest single precision number. -/
def toSingle (number : Decimal) : Float32 :=
  let sign := if number.negative then twoTo 31 else 0
  Float32.ofBits (UInt32.ofNat (sign + number.encode .single))

/-- The nearest double precision number. -/
def toDouble (number : Decimal) : Float :=
  let sign := if number.negative then twoTo 63 else 0
  Float.ofBits (UInt64.ofNat (sign + number.encode .double))

end Decimal

/-- The single precision number nearest to a double precision one. -/
def singleOfDouble (value : Float) : Float32 :=
  let bits := value.toBits.toNat
  let magnitude := bits % twoTo 63
  let sign := if twoTo 63 ≤ bits then twoTo 31 else 0
  if BinaryFormat.double.infinityBits < magnitude then
    Float32.ofBits 0x7fc00000
  else if magnitude = BinaryFormat.double.infinityBits then
    Float32.ofBits (UInt32.ofNat (sign + BinaryFormat.single.infinityBits))
  else
    let (significand, exponent) := BinaryFormat.double.decode magnitude
    let (numerator, denominator) := unscale significand 1 (-exponent)
    Float32.ofBits
      (UInt32.ofNat (sign + BinaryFormat.single.encode numerator denominator))

end Flowchart.Number
