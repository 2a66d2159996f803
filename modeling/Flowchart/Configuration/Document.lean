import Flowchart.Configuration.Number
import Flowchart.Configuration.Table

/-!
Configuration files: lines that open tables and lines that set values.
-/

namespace Flowchart.Configuration

open Outline (Reader)
open Outline.Reader
open Settings (Value)

/-! ## Keys -/

def isKeyChar (c : Char) : Bool := c.isAlphanum || c = '_' || c = '-'

def simpleKey : Reader String :=
  otherwise
    (do return String.ofList (← nonemptyRun isKeyChar))
    (basicString.otherwise literalString)

/-- The last of some keys, and those before it. -/
def splitLast (keys : List String) : Reader (List String × String) :=
  match keys.getLast? with
  | some key => pure (keys.dropLast, key)
  | none => nothing

/-- How deep values and keys may nest. -/
def nestingLimit : Nat := 80

/-- Reads keys with points between them. -/
def dottedKey : Reader (List String × String) := do
  let point : Reader Unit := do
    blanks
    char '.'
    blanks
  let keys ← separated simpleKey point
  if keys.length ≤ nestingLimit then splitLast keys else nothing

/-! ## Values -/

def boolean : Reader Value :=
  otherwise
    (do literal "true"; return .boolean true)
    (do literal "false"; return .boolean false)

def string : Reader Value := do
  return .text (← anyString)

/-- Reads a value without brackets. -/
def scalar : Reader Value :=
  string.otherwise <| boolean.otherwise <| moment.otherwise <|
    decimalFloat.otherwise <| specialFloat.otherwise integer

/-- Reads items in brackets with commas between them; one more may follow the
last item. -/
def bracketed {β : Type} (opening closing : Char) (item : Reader β) :
    Reader (List β) := do
  char opening
  gap
  let comma : Reader Unit := do
    gap
    char ','
    gap
  let items ← optional (separated item comma)
  gap
  if items.isSome then
    let _ ← optional (char ',')
  gap
  char closing
  return items.getD []

/-- Reads a key and its value, with what may stand around the sign between
them. -/
def assignment (space : Reader Unit) (value : Reader Value) :
    Reader ((List String × String) × Value) := do
  let key ← dottedKey
  space
  char '='
  space
  return (key, ← value)

/-- The table that the entries between braces make. -/
def inlineTable? (items : List ((List String × String) × Value)) :
    Option Value := do
  let entries ← items.foldlM
    (fun (entries : Entries) (key, value) => entries.set key.1 key.2 value) []
  return .table (finishAll entries)

/-- Reads a value in which brackets are nested no deeper than a limit. -/
def valueWithin : (limit : Nat) → Reader Value
  | 0 => scalar
  | limit + 1 =>
      let value := valueWithin limit
      let list : Reader Value := do
        return .list (← bracketed '[' ']' value)
      let table : Reader Value := do
        let items ← bracketed '\x7b' '\x7d' (assignment gap value)
        orRefuse (inlineTable? items)
      scalar.otherwise (list.otherwise table)

def value : Reader Value := valueWithin nestingLimit

/-! ## Lines -/

inductive Line where
  | openTable (path : List String) (key : String)
  | openElement (path : List String) (key : String)
  | set (path : List String) (key : String) (value : Value)

namespace Line

def header (opening closing : String) : Reader (List String × String) := do
  literal opening
  blanks
  let key ← dottedKey
  blanks
  literal closing
  return key

def read : Reader Line :=
  otherwise
    (do
      let (path, key) ← header "[[" "]]"
      return .openElement path key) <|
    otherwise
      (do
        let (path, key) ← header "[" "]"
        return .openTable path key)
      (do
        let ((path, key), value) ← assignment blanks value
        return .set path key value)

end Line

/-- Reads what a line has on it, if anything. -/
def lineContent : Reader (Option Line) := do
  blanks
  let line ← optional Line.read
  blanks
  let _ ← optional comment
  return line

/-- Reads all lines of a file. -/
def allLines : Reader (List Line) := do
  let _ ← optional (char '\ufeff')
  let lineEnd : Reader Unit := do
    let _ ← newline
  let lines ← separated lineContent lineEnd
  endOfText
  return lines.filterMap id

/-! ## Documents -/

/-- The tables read so far, and the path of the one that is open. -/
structure Draft where
  entries : Entries
  header : List String

namespace Draft

def empty : Draft := ⟨[], []⟩

def add (draft : Draft) : Line → Option Draft
  | .openTable path key =>
      (draft.entries.openTable path key).map (⟨·, path ++ [key]⟩)
  | .openElement path key =>
      (draft.entries.openElement path key).map (⟨·, path ++ [key]⟩)
  | .set path key value =>
      (draft.entries.setIn draft.header path key value).map
        (⟨·, draft.header⟩)

end Draft

/-- The table that a configuration file describes, unless it is malformed. -/
def read? (text : String) : Option Value :=
  match allLines text.toList with
  | .done lines _ => do
      let draft ← lines.foldlM Draft.add Draft.empty
      return .table (finishAll draft.entries)
  | _ => none

end Flowchart.Configuration
