import Flowchart.Outline.Reader
import Flowchart.Geometry.Point
import Flowchart.Number.Decimal

/-!
The smallest parts of an outline: blanks, keywords, quoted texts, names and
size attributes.
-/

namespace Flowchart.Outline

open Reader

/-! ## Blanks and words -/

def isBlank (c : Char) : Bool :=
  c = ' ' || c = '\t' || c = '\r' || c = '\n'

/-- What follows the blanks and comments at the front of a text.  A comment
goes from two slashes to the end of its line. -/
def skipBlanks (inComment : Bool) : List Char → List Char
  | [] => []
  | '/' :: '/' :: rest => skipBlanks true rest
  | first :: rest =>
      if isBlank first then skipBlanks (inComment && first ≠ '\n') rest
      else if inComment then skipBlanks true rest
      else first :: rest

/-- Skips blanks and comments, if there are any. -/
def blanks : Reader Unit := fun input => .done () (skipBlanks false input)

/-- Skips blanks and comments before a value. -/
def afterBlanks {β : Type} (reader : Reader β) : Reader β := do
  blanks
  reader

/-- Letters and digits are those of ASCII throughout. -/
def isWordChar (c : Char) : Bool := c.isAlphanum || c = '_'

/-- Reads a word that does not go on after its last letter. -/
def keyword (word : String) : Reader Unit := do
  literal word
  notBefore isWordChar

/-! ## Quoted texts -/

/-- The characters that may follow a backslash, and what they stand for. -/
def escapes : List (Char × Char) :=
  [('n', '\n'), ('t', '\t'), ('r', '\r'), ('"', '"'), ('\\', '\\')]

/-- Characters that stand for themselves between quotes. -/
def isPlain (c : Char) : Bool :=
  c ≠ '"' && c ≠ '\\' && c ≠ '\n' && c ≠ '\r'

/-- Reads characters and escapes for as long as they can stand between
quotes. -/
def quotedContent : Reader (List Char)
  | [] => .done [] []
  | '\\' :: [] => .failed [] (some .escape)
  | '\\' :: letter :: rest =>
      match escapes.lookup letter with
      | some meant => (quotedContent rest).map (meant :: ·)
      | none => .failed (letter :: rest) (some .escape)
  | first :: rest =>
      if isPlain first then (quotedContent rest).map (first :: ·)
      else .done [] (first :: rest)

/-- Reads a text in double quotes that ends on its line. -/
def stringLiteral : Reader String := do
  char '"'
  expecting .closingQuote <| required do
    let content ← quotedContent
    char '"'
    return String.ofList content

def quotedText (what : Quoted) : Reader String :=
  expecting (.quoted what) stringLiteral

def semicolon : Reader Unit :=
  expecting .semicolon (afterBlanks (char ';'))

/-! ## Attributes -/

/-- A name given to a node.  Its place is told by what follows it, which is all
that a reader knows of its text. -/
structure Name where
  text : String
  bytesAfter : Nat
deriving DecidableEq, Repr

/-- How many bytes a text takes up. -/
def byteCount (text : List Char) : Nat :=
  text.foldl (fun count c => count + c.utf8Size) 0

/-- What is written after an item or beside an arm: a name and a size, if
any. -/
structure Attributes where
  name : Option Name
  hint : Option (Size Float32)
deriving Repr, Inhabited

def isNameChar (c : Char) : Bool :=
  c.isAlphanum || c = '_' || c = '-' || c = '.'

def nameText : Reader Name := do
  let text ← nonemptyRun isNameChar
  fun rest => .done ⟨String.ofList text, byteCount rest⟩ rest

def isNumberChar (c : Char) : Bool :=
  c.isDigit || c = '.' || c = 'e' || c = 'E' || c = '+' || c = '-'

/-- The width or height that a number stands for, if it is finite and not
negative. -/
def dimensionOf? (text : List Char) : Option Float32 :=
  (Number.Decimal.read? text).bind fun number =>
    let value := number.toSingle
    if value.isFinite && decide (Scalar.zero ≤ value) then some value else none

def dimensionValue : Reader Float32 :=
  fun input =>
    match nonemptyRun isNumberChar input with
    | .done text rest =>
        match dimensionOf? text with
        | some value => .done value rest
        | none => .refused input none
    | .refused place expected => .refused place expected
    | .failed place expected => .failed place expected

inductive Axis where
  | width
  | height
deriving DecidableEq, Repr

def axis : Reader Axis :=
  otherwise
    (do keyword "width"; return .width)
    (do keyword "height"; return .height)

/-- Reads `width=120` or `height=40`. -/
def dimension : Reader (Axis × Float32) := do
  let along ← axis
  afterBlanks (char '=')
  return (along, ← afterBlanks dimensionValue)

/-- The size that dimensions give; one that is missing is zero, and of two for
the same axis the later counts. -/
def sizeOf (dimensions : List (Axis × Float32)) : Size Float32 :=
  dimensions.foldl
    (fun size dimension =>
      match dimension with
      | (.width, value) => { size with width := value }
      | (.height, value) => { size with height := value })
    ⟨Scalar.zero, Scalar.zero⟩

/-- Reads a size attribute such as `[width=120, height=40]`. -/
def sizeAttribute : Reader (Size Float32) := do
  char '['
  blanks
  let comma : Reader Unit := do
    afterBlanks (char ',')
    blanks
  let dimensions ← expecting .sizeAttribute <| required <|
    separated dimension comma
  expecting .endOfSize <| required <| afterBlanks (char ']')
  return sizeOf dimensions

def attributes : Reader Attributes := do
  let name ← optional do
    afterBlanks (char '@')
    expecting .name (required nameText)
  let hint ← optional (afterBlanks sizeAttribute)
  return ⟨name, hint⟩

end Flowchart.Outline
