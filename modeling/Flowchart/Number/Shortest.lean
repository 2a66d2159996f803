import Flowchart.Number.Binary

/-!
The decimal text of a single precision number: the fewest digits that read
back as the same number, written without an exponent.
-/

namespace Flowchart.Number

/-- The values that round to one binary number are those between `low` and
`high`, the ends among them if `closed`.  All three values are counted in units
of `1 / denominator`. -/
structure RoundingInterval where
  low : Nat
  value : Nat
  high : Nat
  denominator : Nat
  closed : Bool
deriving Repr

namespace RoundingInterval

/-- The interval of a positive finite number.  Below a power of two the
neighbour is only half as far away as above it. -/
def ofBits (format : BinaryFormat) (bits : Nat) : RoundingInterval :=
  let (significand, exponent) := format.decode bits
  let belowIsNearer :=
    significand = twoTo format.fractionBits && format.leastExponent < exponent
  let quarter := exponent - 2
  let scale := twoTo quarter.toNat
  { low := (4 * significand - (if belowIsNearer then 1 else 2)) * scale
    value := 4 * significand * scale
    high := (4 * significand + 2) * scale
    denominator := twoTo (-quarter).toNat
    closed := significand % 2 = 0 }

/-- Whether `count` steps of `step / stepDenominator` lie in the interval. -/
def holds (interval : RoundingInterval)
    (count step stepDenominator : Nat) : Bool :=
  let point := count * step * interval.denominator
  let low := interval.low * stepDenominator
  let high := interval.high * stepDenominator
  if interval.closed then low ≤ point && point ≤ high
  else low < point && point < high

/-- The power of ten of the first digit of the value. -/
def leadingPower (interval : RoundingInterval) : Int :=
  let numerator := interval.value
  let denominator := interval.denominator
  if denominator ≤ numerator then
    (Nat.toDigits 10 (numerator / denominator)).length - 1
  else
    let digits := (Nat.toDigits 10 (denominator / numerator)).length
    if denominator ≤ numerator * tenTo (digits - 1) then
      1 - (digits : Int)
    else -(digits : Int)

/-- The multiple of ten to the power `power` that reads back as the value, if
one does.  Only the two neighbours of the value on that grid can; of both the
nearer is taken, and of two equally near ones the larger. -/
def multiple? (interval : RoundingInterval) (power : Int) : Option Nat :=
  let step := tenTo power.toNat
  let stepDenominator := tenTo (-power).toNat
  let unit := step * interval.denominator
  let scaled := interval.value * stepDenominator
  let below := scaled / unit
  let above := below + 1
  match interval.holds below step stepDenominator,
      interval.holds above step stepDenominator with
  | true, true =>
      some (if 2 * (scaled % unit) < unit then below else above)
  | true, false => some below
  | false, true => some above
  | false, false => none

/-- The digits of the shortest decimal in the interval and the power of ten
of the last one; `most` digits are enough for the format at hand. -/
def shortest (interval : RoundingInterval) (most : Nat) : Nat × Int :=
  let lead := interval.leadingPower
  let found := (List.range most).findSome? fun (extra : Nat) =>
    let power := lead - extra
    (interval.multiple? power).map fun digits => (digits, power)
  found.getD (interval.value / interval.denominator, 0)

end RoundingInterval

/-- `digits · 10 ^ power` in positional notation, with neither a point nor
zeros after the last digit that counts. -/
def positional (digits : Nat) (power : Int) : String :=
  if 0 ≤ power then toString (digits * tenTo power.toNat)
  else
    let places := (-power).toNat
    let whole := digits / tenTo places
    let fraction := digits % tenTo places
    let written := Nat.toDigits 10 fraction
    let padded := List.replicate (places - written.length) '0' ++ written
    let kept := (padded.reverse.dropWhile (· = '0')).reverse
    if kept.isEmpty then toString whole
    else toString whole ++ "." ++ String.ofList kept

/-- The text of a number: the fewest digits that read back, never an exponent;
zero keeps its sign. -/
def text (value : Float32) : String :=
  let bits := value.toBits.toNat
  let magnitude := bits % twoTo 31
  let sign := if twoTo 31 ≤ bits then "-" else ""
  if BinaryFormat.single.infinityBits < magnitude then "NaN"
  else if magnitude = BinaryFormat.single.infinityBits then sign ++ "inf"
  else if magnitude = 0 then sign ++ "0"
  else
    let interval := RoundingInterval.ofBits .single magnitude
    let (digits, power) := interval.shortest 9
    sign ++ positional digits power

end Flowchart.Number
