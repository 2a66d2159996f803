import Flowchart.Outline.Reader

/-!
The smallest parts of a configuration file: blanks, ends of lines, comments and
the four kinds of strings.
-/

namespace Flowchart.Configuration

open Outline (Reader)
open Outline.Reader

/-! ## Blanks and lines -/

def isBlank (c : Char) : Bool := c = ' ' || c = '\t'

/-- The characters that may stand in comments and strings. -/
def isPrintable (c : Char) : Bool := c = '\t' || (' ' ≤ c && c ≠ '\x7f')

def blanks : Reader Unit := do
  let _ ← run isBlank

/-- The end of a line, as it is written. -/
def newline : Reader (List Char) :=
  otherwise
    (do literal "\n"; return ['\n'])
    (do literal "\r\n"; return ['\r', '\n'])

def comment : Reader Unit := do
  char '#'
  let _ ← run isPrintable

/-- Skips blanks, comments and ends of lines, as they may stand inside
brackets. -/
def gap : Reader Unit := do
  let blank : Reader Unit := do
    let _ ← nonemptyRun isBlank
  let line : Reader Unit := do
    let _ ← newline
  let _ ← repeated (blank.otherwise (line.otherwise comment))

/-- A reader that never finds anything. -/
def nothing {β : Type} : Reader β := fun input => .refused input none

/-- The result of a partial function on what was read. -/
def orRefuse {β : Type} (value : Option β) : Reader β :=
  match value with
  | some value => pure value
  | none => nothing

/-! ## Escapes -/

/-- The letters that may follow a backslash, and what they stand for. -/
def escapes : List (Char × Char) :=
  [('b', '\x08'), ('t', '\t'), ('n', '\n'), ('f', '\x0c'), ('r', '\r'),
    ('e', '\x1b'), ('"', '"'), ('\\', '\\')]

/-- The letters that are followed by the code of a character, and how many
hexadecimal digits the code has. -/
def codeLengths : List (Char × Nat) := [('x', 2), ('u', 4), ('U', 8)]

def isHexDigit (c : Char) : Bool :=
  c.isDigit || ('a' ≤ c && c ≤ 'f') || ('A' ≤ c && c ≤ 'F')

def hexDigitValue (c : Char) : Nat :=
  if c.isDigit then c.toNat - '0'.toNat
  else if 'a' ≤ c then c.toNat - 'a'.toNat + 10
  else c.toNat - 'A'.toNat + 10

/-- The value of a run of digits to a base. -/
def digitsValue (base : Nat) (digits : List Char) : Nat :=
  digits.foldl (fun value digit => value * base + hexDigitValue digit) 0

/-- The character with a code.  Halves of surrogate pairs are none. -/
def charOfCode? (code : Nat) : Option Char :=
  if code.isValidChar then some (Char.ofNat code) else none

/-- Reads exactly so many hexadecimal digits. -/
def hexDigits : Nat → Reader (List Char)
  | 0 => pure []
  | count + 1 => do
      let first ← charWhere isHexDigit
      return first :: (← hexDigits count)

/-- Reads an escape, which is one character in the end. -/
def escaped : Reader (List Char) := do
  char '\\'
  let letter ← charWhere fun _ => true
  match escapes.lookup letter, codeLengths.lookup letter with
  | some c, _ => return [c]
  | none, some length =>
      let digits ← hexDigits length
      return [← orRefuse (charOfCode? (digitsValue 16 digits))]
  | none, none => nothing

/-! ## Strings -/

/-- Reads one character that stands for itself. -/
def plainChar (special : List Char) : Reader (List Char) := do
  return [← charWhere fun c => isPrintable c && !special.contains c]

/-- Reads pieces up to a closing quote. -/
def lineString (quote : Char) (piece : Reader (List Char)) : Reader String := do
  char quote
  let content ← repeated piece
  char quote
  return String.ofList content.flatten

/-- A backslash at the end of a line skips all blanks and lines up to the next
character. -/
def continuation : Reader (List Char) := do
  char '\\'
  blanks
  let _ ← newline
  let _ ← repeated <|
    otherwise (nonemptyRun isBlank) newline
  return []

/-- Reads one or two quotes that are part of a string of several lines. -/
def innerQuotes (quote : Char) : Reader (List Char) := do
  let quotes ← nonemptyRun (· = quote)
  if quotes.length ≤ 2 then return quotes else nothing

/-- Reads the three quotes at the end of a string of several lines; up to two
more before them belong to the string. -/
def closingQuotes (quote : Char) : Reader (List Char) := do
  let quotes ← nonemptyRun (· = quote)
  if 3 ≤ quotes.length && quotes.length ≤ 5 then return quotes.drop 3
  else nothing

/-- Reads a string of several lines.  An end of line right after the opening
quotes is not part of it. -/
def multilineString (quote : Char) (piece : Reader (List Char)) :
    Reader String := do
  literal (String.ofList [quote, quote, quote])
  let _ ← optional newline
  let content ← repeated (piece.otherwise (innerQuotes quote))
  let quotes ← closingQuotes quote
  return String.ofList (content.flatten ++ quotes)

def basicString : Reader String :=
  lineString '"' (escaped.otherwise (plainChar ['"', '\\']))

/-- Between single quotes there are no escapes. -/
def literalString : Reader String := lineString '\x27' (plainChar ['\x27'])

def multilineBasicString : Reader String :=
  multilineString '"' <|
    escaped.otherwise <| continuation.otherwise <|
      newline.otherwise (plainChar ['"', '\\'])

def multilineLiteralString : Reader String :=
  multilineString '\x27' (newline.otherwise (plainChar ['\x27']))

def anyString : Reader String :=
  multilineBasicString.otherwise <| multilineLiteralString.otherwise <|
    basicString.otherwise literalString

end Flowchart.Configuration
