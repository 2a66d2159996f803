import Flowchart.Configuration.Text
import Flowchart.Settings.Value

/-!
Numbers and moments of a configuration file.
-/

namespace Flowchart.Configuration

open Outline (Reader)
open Outline.Reader
open Settings (Value)

/-! ## Digits -/

/-- Reads digits of a class; single underscores may stand between them. -/
def digits (accepted : Char → Bool) : Reader (List Char) := do
  let first ← charWhere accepted
  let next : Reader Char := do
    let _ ← optional (char '_')
    charWhere accepted
  return first :: (← repeated next)

def sign : Reader (List Char) := do
  let read ← optional (charWhere fun c => c = '+' || c = '-')
  return read.toList

/-- Reads a whole number without its sign; only zero begins with a zero. -/
def wholeDigits : Reader (List Char) := do
  match ← digits Char.isDigit with
  | '0' :: _ :: _ => nothing
  | digits => return digits

/-! ## Integers -/

/-- Integers of more than a hundred and twenty-eight bits are excessive. -/
def integerValue (value : Int) : Value :=
  if -Number.twoTo 127 ≤ value && value < Number.twoTo 128 then .integer value
  else .excessive

def decimalInteger : Reader Value := do
  let sign ← sign
  let value : Int := digitsValue 10 (← wholeDigits)
  return integerValue (if sign = ['-'] then -value else value)

/-- Reads an integer to a base, after the mark of the base. -/
def baseInteger (mark : String) (base : Nat) (accepted : Char → Bool) :
    Reader Value := do
  literal mark
  let digits ← digits accepted
  return integerValue (digitsValue base digits)

def integer : Reader Value :=
  otherwise (baseInteger "0x" 16 isHexDigit) <|
    otherwise (baseInteger "0o" 8 fun c => '0' ≤ c && c ≤ '7') <|
      otherwise (baseInteger "0b" 2 fun c => c = '0' || c = '1')
        decimalInteger

/-! ## Floating point numbers -/

def fraction : Reader (List Char) := do
  char '.'
  return '.' :: (← digits Char.isDigit)

def exponent : Reader (List Char) := do
  let _ ← charWhere fun c => c = 'e' || c = 'E'
  let sign ← sign
  return 'e' :: sign ++ (← digits Char.isDigit)

/-- Reads a number with a fraction or an exponent.  It is excessive where it is
too large for double precision. -/
def decimalFloat : Reader Value := do
  let sign ← sign
  let whole ← wholeDigits
  let tail ← otherwise
    (do
      let fraction ← fraction
      return fraction ++ ((← optional exponent).getD []))
    exponent
  let number ← orRefuse (Number.Decimal.read? (sign ++ whole ++ tail))
  let value := number.toDouble
  return if value.isInf then .excessive else .float value

def specialFloat : Reader Value := do
  let sign ← sign
  let value : Float ← otherwise
    (do literal "inf"; return 1 / 0)
    (do literal "nan"; return 0 / 0)
  return .float (if sign = ['-'] then -value else value)

/-! ## Moments -/

/-- Reads exactly so many decimal digits. -/
def fixedDigits : Nat → Reader (List Char)
  | 0 => pure []
  | count + 1 => do
      let first ← charWhere Char.isDigit
      return first :: (← fixedDigits count)

/-- Reads a number of so many digits that lies between two others. -/
def numberBetween (count low high : Nat) : Reader Nat := do
  let value := digitsValue 10 (← fixedDigits count)
  if low ≤ value && value ≤ high then return value else nothing

def isLeapYear (year : Nat) : Bool :=
  year % 4 = 0 && (year % 100 ≠ 0 || year % 400 = 0)

def daysOfMonth (year month : Nat) : Nat :=
  if month = 2 then if isLeapYear year then 29 else 28
  else if [4, 6, 9, 11].contains month then 30
  else 31

def date : Reader Unit := do
  let year ← numberBetween 4 0 9999
  char '-'
  let month ← numberBetween 2 1 12
  char '-'
  let _ ← numberBetween 2 1 (daysOfMonth year month)

/-- Reads a time of day, with or without seconds. -/
def time : Reader Unit := do
  let _ ← numberBetween 2 0 23
  char ':'
  let _ ← numberBetween 2 0 59
  let seconds : Reader Unit := do
    char ':'
    let _ ← numberBetween 2 0 60
    let _ ← optional do
      char '.'
      nonemptyRun Char.isDigit
  let _ ← optional seconds

/-- Reads the difference of a time to the universal one. -/
def offset : Reader Unit :=
  otherwise
    (do
      let _ ← charWhere fun c => c = 'Z' || c = 'z'
      return ())
    (do
      let _ ← charWhere fun c => c = '+' || c = '-'
      let _ ← numberBetween 2 0 23
      char ':'
      let _ ← numberBetween 2 0 59
      return ())

/-- Reads a date, a time, or both.  No setting is a moment, so it counts as a
table without any known field. -/
def moment : Reader Value := do
  let timeOfDate : Reader Unit := do
    let _ ← charWhere fun c => c = 'T' || c = 't' || c = ' '
    time
    let _ ← optional offset
  let whole : Reader Unit := do
    date
    let _ ← optional timeOfDate
  whole.otherwise time
  return .table []

end Flowchart.Configuration
