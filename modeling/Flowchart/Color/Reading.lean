import Flowchart.Color.Basic
import Flowchart.Color.Names
import Flowchart.Number.Decimal

/-!
Reading colours as style sheets write them: by name, by hexadecimal digits, or
by a function of numbers.
-/

namespace Flowchart.Color

inductive ReadError where
  | unknownAngleDimension
  | unknownAngle
  | unknownComponent
  | unknownName
  | unknownSpace
  | unknownForm
  | expectedArguments
  | expectedClosing
  | expectedSpace
  | expectedComma
  | expectedEnd
  | wrongHexDigits
deriving DecidableEq, Repr

namespace ReadError

def message : ReadError → String
  | .unknownAngleDimension => "unknown angle dimension"
  | .unknownAngle => "unknown angle"
  | .unknownComponent => "unknown color component"
  | .unknownName => "unknown color identifier"
  | .unknownSpace => "unknown color space"
  | .unknownForm => "unknown color syntax"
  | .expectedArguments => "expected arguments"
  | .expectedClosing => "expected closing parenthesis"
  | .expectedSpace => "expected color space identifier"
  | .expectedComma => "expected comma"
  | .expectedEnd => "expected end of string"
  | .wrongHexDigits => "wrong number of hex digits"

end ReadError

/-! ## Tokens -/

/-- The text after the end of a comment. -/
def afterComment? : List Char → Option (List Char)
  | '*' :: '/' :: rest => some rest
  | _ :: rest => afterComment? rest
  | [] => none

/-- Skips comments one after the other.  An unclosed one stays in the text and
is told by the flag; no token is then found there. -/
def skipComments (fuel : Nat) (text : List Char) : Bool × List Char :=
  match fuel, text with
  | fuel + 1, '/' :: '*' :: inside =>
      match afterComment? inside with
      | some rest => skipComments fuel rest
      | none => (false, text)
  | _, _ => (true, text)

/-- Comments at the front of a text are fewer than its characters. -/
def uncommented (text : List Char) : Bool × List Char :=
  skipComments text.length text

def isSpace (c : Char) : Bool :=
  c = ' ' || c = '\t' || c = '\r' || c = '\n'

/-- Skips blanks and comments for as long as blanks follow. -/
def skipSpaces (fuel : Nat) (text : List Char) : List Char :=
  match fuel with
  | 0 => text
  | fuel + 1 =>
      match uncommented text with
      | (false, rest) => rest
      | (true, rest) =>
          let after := rest.dropWhile isSpace
          if after.length < rest.length then skipSpaces fuel after else rest

def spaces (text : List Char) : List Char := skipSpaces (text.length + 1) text

/-- Takes one character if it comes next, after comments. -/
def takeChar (expected : Char) (text : List Char) : Bool × List Char :=
  match uncommented text with
  | (false, rest) => (false, rest)
  | (true, first :: rest) =>
      if first = expected then (true, rest) else (false, first :: rest)
  | (true, []) => (false, [])

/-- How long a number at the front of a text is; zero if there is none. -/
def numberLength (text : List Char) : Nat :=
  let digits (text : List Char) := (text.takeWhile Char.isDigit).length
  let sign :=
    match text with
    | '+' :: _ | '-' :: _ => 1
    | _ => 0
  let whole := digits (text.drop sign)
  let afterWhole := text.drop (sign + whole)
  let fraction :=
    match afterWhole with
    | '.' :: rest => if digits rest = 0 then 0 else 1 + digits rest
    | _ => 0
  let exponentOf (rest : List Char) : Nat :=
    let sign :=
      match rest with
      | '+' :: _ | '-' :: _ => 1
      | _ => 0
    let count := digits (rest.drop sign)
    if count = 0 then 0 else 1 + sign + count
  let exponent :=
    match afterWhole.drop fraction with
    | 'e' :: rest | 'E' :: rest => exponentOf rest
    | _ => 0
  if whole + fraction = 0 then 0 else sign + whole + fraction + exponent

def takeNumber (text : List Char) : Option Float × List Char :=
  match uncommented text with
  | (false, rest) => (none, rest)
  | (true, rest) =>
      let length := numberLength rest
      match Number.Decimal.read? (rest.take length) with
      | some number => (some number.toDouble, rest.drop length)
      | none => (none, rest)

/-- How long a word at the front of a text is.  It does not start with a digit,
nor with a hyphen and a digit. -/
def wordLength (text : List Char) : Nat :=
  let isLetter (c : Char) : Bool := c.isAlpha || c = '_' || c = '-'
  let isLater (c : Char) : Bool := isLetter c || c.isDigit
  match text with
  | '-' :: rest =>
      match rest with
      | second :: rest =>
          if isLetter second then 2 + (rest.takeWhile isLater).length else 1
      | [] => 1
  | first :: rest =>
      if isLetter first then 1 + (rest.takeWhile isLater).length else 0
  | [] => 0

/-- Takes a word, which no comment may precede, so that a unit stands right
after its number; a lone hyphen and two hyphens start none. -/
def takeWord (text : List Char) : Option String × List Char :=
  let length := wordLength text
  let word := text.take length
  let isWord :=
    match word with
    | [] | ['-'] => false
    | '-' :: '-' :: _ => false
    | _ => true
  if isWord then (some (String.ofList word), text.drop length)
  else (none, text)

/-- Keywords are read without regard to case. -/
def lowered (word : String) : String := word.toLower

inductive Value where
  | word (word : String)
  | number (value : Float)
  | percent (value : Float)
  | dimension (value : Float) (unit : String)

def takeValue (text : List Char) : Option Value × List Char :=
  match takeNumber text with
  | (some number, rest) =>
      match rest with
      | '%' :: rest => (some (.percent number), rest)
      | _ =>
          match takeWord rest with
          | (some unit, rest) => (some (.dimension number unit), rest)
          | (none, rest) => (some (.number number), rest)
  | (none, rest) =>
      match takeWord rest with
      | (some word, rest) => (some (.word word), rest)
      | (none, rest) => (none, rest)

/-! ## Components -/

/-- Reading a colour: a state of text still to read, and an error. -/
abbrev Reading (β : Type) : Type := StateT (List Char) (Except ReadError) β

/-- A token taken from the text. -/
def token {β : Type} (take : List Char → β × List Char) : Reading β :=
  modifyGet take

def skip : Reading Unit := modify spaces

/-- Requires a character. -/
def expect (expected : Char) (error : ReadError) : Reading Unit := do
  if !(← token (takeChar expected)) then throw error

/-- The parenthesis must follow the name of a function at once. -/
def opening : Reading Unit := do
  match ← get with
  | '(' :: rest => set rest
  | _ => throw .expectedArguments

def clampTo (low high value : Float) : Float :=
  if value < low then low else if high < value then high else value

def notBelowZero (value : Float) : Float := if 0 < value then value else 0

/-- A number or a percentage, each with a scale of its own. -/
def component (scale percentScale : Float) : Reading (Option Float) := do
  skip
  match ← token takeValue with
  | some (.number value) => return some (value * scale)
  | some (.percent value) => return some (value * percentScale)
  | some (.word word) =>
      if lowered word = "none" then return none
      else throw .unknownComponent
  | _ => throw .unknownComponent

/-- How many degrees the unit of an angle is worth. -/
def degreesPer? : String → Option Float
  | "deg" => some 1
  | "rad" => some (180 / 3.141592653589793)
  | "grad" => some 0.9
  | "turn" => some 360
  | _ => none

def angle : Reading (Option Float) := do
  skip
  match ← token takeValue with
  | some (.number value) => return some value
  | some (.word word) =>
      if lowered word = "none" then return none else throw .unknownAngle
  | some (.dimension value unit) =>
      match degreesPer? (lowered unit) with
      | some degrees => return some (value * degrees)
      | none => throw .unknownAngleDimension
  | _ => throw .unknownAngle

/-- The comma between further components, if there was one before. -/
def commaIf (commas : Bool) : Reading Unit := do
  skip
  if commas then expect ',' .expectedComma

def alphaAfter (commas : Bool) : Reading (Option Float) := do
  skip
  let mark := if commas then ',' else '/'
  let given ← token (takeChar mark)
  let alpha ←
    if given then
      let alpha ← component 1 0.01
      pure (alpha.map (clampTo 0 1))
    else pure (some 1)
  skip
  return alpha

def closing : Reading Unit := expect ')' .expectedClosing

def ofComponents (space : ColorSpace) (form : ColorForm)
    (first second third alpha : Option Float) : Color :=
  ⟨space, form, first.map Number.singleOfDouble,
    second.map Number.singleOfDouble, third.map Number.singleOfDouble,
    alpha.map Number.singleOfDouble⟩

/-! ## Functions -/

def rgb : Reading Color := do
  opening
  let channel : Reading (Option Float) := do
    let value ← component (1 / 255) 0.01
    return value.map (clampTo 0 1)
  let red ← channel
  skip
  let commas ← token (takeChar ',')
  let green ← channel
  commaIf commas
  let blue ← channel
  let alpha ← alphaAfter commas
  closing
  return ofComponents .srgb .function red green blue alpha

/-- The comma after a hue follows it without blanks. -/
def hsl : Reading Color := do
  opening
  let hue ← angle
  let commas ← token (takeChar ',')
  let saturation ← component 1 1
  commaIf commas
  let lightness ← component 1 1
  let alpha ← alphaAfter commas
  closing
  return ofComponents .hsl .function hue (saturation.map notBelowZero)
    lightness alpha

def hwb : Reading Color := do
  opening
  let hue ← angle
  let white ← component 1 1
  let black ← component 1 1
  let alpha ← alphaAfter false
  closing
  return ofComponents .hwb .function hue white black alpha

/-- A lightness up to `most` and two opponent colours. -/
def labIn (space : ColorSpace) (most percentScale : Float) : Reading Color := do
  opening
  let lightness ← component 1 (0.01 * most)
  let second ← component 1 percentScale
  let third ← component 1 percentScale
  let alpha ← alphaAfter false
  closing
  return ofComponents space .function (lightness.map (clampTo 0 most)) second
    third alpha

/-- A lightness up to `most`, a chroma and a hue. -/
def lchIn (space : ColorSpace) (most percentScale : Float) : Reading Color := do
  opening
  let lightness ← component 1 (0.01 * most)
  let chroma ← component 1 percentScale
  let hue ← angle
  let alpha ← alphaAfter false
  closing
  return ofComponents space .function (lightness.map (clampTo 0 most))
    (chroma.map notBelowZero) hue alpha

/-- Three components in a space that is named first. -/
def inSpace : Reading Color := do
  opening
  skip
  let some name ← token takeWord | throw .expectedSpace
  let some space := ColorSpace.ofName? (lowered name) | throw .unknownSpace
  let first ← component 1 0.01
  let second ← component 1 0.01
  let third ← component 1 0.01
  let alpha ← alphaAfter false
  closing
  return ofComponents space .plain first second third alpha

def byName (name : String) : Except ReadError Color :=
  match palette.lookup name with
  | some bytes =>
      .ok (ofBytes (.named name) (bytes / 0x1000000 % 256)
        (bytes / 0x10000 % 256) (bytes / 0x100 % 256) (bytes % 256))
  | none => .error .unknownName

/-- A name, or a function with its arguments. -/
def worded : Reading Color := do
  let some word ← token takeWord | throw .unknownForm
  match lowered word with
  | "rgb" | "rgba" => rgb
  | "hsl" | "hsla" => hsl
  | "hwb" => hwb
  | "lab" => labIn .lab 100 1.25
  | "lch" => lchIn .lch 100 1.25
  | "oklab" => labIn .oklab 1 0.004
  | "oklch" => lchIn .oklch 1 0.004
  | "color" => inSpace
  | name => byName name

/-! ## Hexadecimal digits -/

def hexDigit? (c : Char) : Option Nat :=
  if c.isDigit then some (c.toNat - '0'.toNat)
  else if 'a' ≤ c && c ≤ 'f' then some (c.toNat - 'a'.toNat + 10)
  else if 'A' ≤ c && c ≤ 'F' then some (c.toNat - 'A'.toNat + 10)
  else none

/-- The colour of the digits after a hash sign: at most eight are looked at,
and one digit for a byte stands for that digit twice. -/
def hexadecimal (text : List Char) : Except ReadError (Color × List Char) :=
  let isHex (c : Char) : Bool := (hexDigit? c).isSome
  let digits := (text.take 8).takeWhile isHex
  let rest := text.drop digits.length
  let bytes (a b c d e f g h : Nat) : Color :=
    ofBytes .function (16 * a + b) (16 * c + d) (16 * e + f) (16 * g + h)
  match digits.filterMap hexDigit? with
  | [r, g, b] => .ok (bytes r r g g b b 15 15, rest)
  | [r, g, b, a] => .ok (bytes r r g g b b a a, rest)
  | [r, s, g, h, b, c] => .ok (bytes r s g h b c 15 15, rest)
  | [r, s, g, h, b, c, a, z] => .ok (bytes r s g h b c a z, rest)
  | _ => .error .wrongHexDigits

/-! ## Whole texts -/

/-- The characters that Unicode counts as white space. -/
def isWhite (c : Char) : Bool :=
  let code := c.toNat
  (9 ≤ code && code ≤ 13) || code = 0x20 || code = 0x85 || code = 0xa0 ||
    code = 0x1680 || (0x2000 ≤ code && code ≤ 0x200a) || code = 0x2028 ||
    code = 0x2029 || code = 0x202f || code = 0x205f || code = 0x3000

def trimmed (text : List Char) : List Char :=
  let front := text.dropWhile isWhite
  (front.reverse.dropWhile isWhite).reverse

/-- The colour that a text stands for, white space around it aside. -/
def readError? (text : String) : Except ReadError Color := do
  let (color, rest) ←
    match trimmed text.toList with
    | '#' :: digits => hexadecimal digits
    | text => worded.run text
  if rest.isEmpty then return color else throw .expectedEnd

/-- Reads a colour, or tells why it is none. -/
def read (text : String) : Except String Color :=
  match readError? text with
  | .ok color => .ok color
  | .error error =>
      .error ("invalid color `" ++ text ++ "`: " ++ error.message)

end Flowchart.Color
