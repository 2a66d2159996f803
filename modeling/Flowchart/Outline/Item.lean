import Flowchart.Outline.Token
import Flowchart.Program.Basic

/-!
The grammar of outlines.  Every construct starts with a keyword of its own, and
once the keyword is read the rest of the construct is required.
-/

namespace Flowchart.Outline

open Reader

/-- What is written at a node: the text in quotes and the attributes. -/
structure Written where
  name : Option Name
  text : String
  hint : Option (Size Float32)
deriving Repr, Inhabited

namespace Written

/-- A node that nothing is written for. -/
def nothing : Written := ⟨none, "", none⟩

def ofText (text : String) (attributes : Attributes) : Written :=
  ⟨attributes.name, text, attributes.hint⟩

end Written

/-- Items are programs with what is written at every node. -/
abbrev Item : Type := Program Written

/-- The block between two braces. -/
def blockOf (members : List Item) : Item := .block Written.nothing members

/-- Bodies nest no deeper than this. -/
def nestingLimit : Nat := 64

/-! ## Items over given bodies -/

/-- How to read what lies one level deeper: a body with its braces, and what
follows `else`. -/
structure Nested where
  body : Reader (List Item)
  afterElse : Reader Item

def statementKeyword : Reader StatementKind :=
  let kind (word : String) (kind : StatementKind) : Reader StatementKind := do
    keyword word
    return kind
  (kind "expr" .expression).otherwise <|
    (kind "let" .variableDefinition).otherwise <|
      (kind "assign" .assignment).otherwise <|
        kind "compound" .compoundAssignment

def statementItem : Reader Item := do
  let kind ← statementKeyword
  required do
    let text ← afterBlanks (quotedText .statement)
    let given ← attributes
    semicolon
    return .statement (.ofText text given) kind

def resultItem : Reader Item := do
  keyword "return"
  required do
    let text ← optional (afterBlanks stringLiteral)
    let given ← attributes
    semicolon
    return .result (.ofText (text.getD "") given)

def decisionItem (nested : Nested) : Reader Item := do
  keyword "if"
  let (label, consequent) ← required do
    let text ← afterBlanks (quotedText .condition)
    let given ← attributes
    return (Written.ofText text given, ← nested.body)
  let alternative ← optional do
    afterBlanks (keyword "else")
    required nested.afterElse
  return .decision label (blockOf consequent) alternative

/-- Reads an arm of a selection.  Its attributes belong to its block. -/
def armItem (nested : Nested) : Reader (String × Item) := do
  keyword "case"
  required do
    let pattern ← afterBlanks (quotedText .armPattern)
    let given ← attributes
    let members ← nested.body
    return (pattern, .block (.ofText "" given) members)

def selectionItem (nested : Nested) : Reader Item := do
  keyword "match"
  let label ← required do
    let text ← afterBlanks (quotedText .selectionSubject)
    return Written.ofText text (← attributes)
  expecting .openingBrace <| required <| afterBlanks (char '\x7b')
  let arms ← required do
    let arms ← repeated (afterBlanks (armItem nested))
    expecting .armOrClosingBrace <| afterBlanks (char '\x7d')
    return arms
  return .selection label arms

/-- Reads a keyword, a text in quotes, attributes and a body. -/
def headedItem (nested : Nested) (word : String) (what : Quoted)
    (build : Written → Item → Item) : Reader Item := do
  keyword word
  required do
    let text ← afterBlanks (quotedText what)
    let given ← attributes
    let members ← nested.body
    return build (.ofText text given) (blockOf members)

def typeItem : Reader Item := do
  keyword "type"
  required do
    let text ← afterBlanks (quotedText .typeDefinition)
    let given ← attributes
    semicolon
    return .typeDefinition (.ofText text given)

def blockItem (nested : Nested) : Reader Item :=
  otherwise
    (do
      keyword "block"
      required do
        let given ← attributes
        return .block (.ofText "" given) (← nested.body))
    (do return blockOf (← nested.body))

def item (nested : Nested) : Reader Item :=
  statementItem.otherwise <|
  resultItem.otherwise <|
  (decisionItem nested).otherwise <|
  (selectionItem nested).otherwise <|
  (headedItem nested "while" .loopCondition (.loop · .whileHolds)).otherwise <|
  (headedItem nested "foreach" .loopHeader (.loop · .forEach)).otherwise <|
  (headedItem nested "function" .functionSignature
    (.container · .function)).otherwise <|
  (headedItem nested "service" .serviceName (.container · .service)).otherwise <|
  typeItem.otherwise <|
  blockItem nested

def items (nested : Nested) : Reader (List Item) :=
  repeated (afterBlanks (item nested))

/-! ## Bodies -/

/-- Reads items up to the closing brace and that brace. -/
def bodyRest (nested : Nested) : Reader (List Item) :=
  required do
    let members ← items nested
    expecting .itemOrClosingBrace <| afterBlanks (char '\x7d')
    return members

def openingBrace : Reader Unit := afterBlanks (char '\x7b')

/-- Refuses for good, since bodies nest too deep. -/
def tooDeep {β : Type} : Reader β := expecting .shallowerBody stop

/-- Reads what follows `else`: another decision, or a block with attributes. -/
def elseItem (nested : Nested) : Reader Item :=
  expecting .afterElse <| afterBlanks <| otherwise
    (decisionItem nested)
    (do
      let given ← attributes
      openingBrace
      return .block (.ofText "" given) (← bodyRest nested))

/-- Bodies that may hold as many levels of further bodies as given. -/
def nestedWithin : (levels : Nat) → Nested
  | 0 =>
      { body := do expecting .openingBrace openingBrace; tooDeep
        afterElse := tooDeep }
  | levels + 1 =>
      let nested := nestedWithin levels
      { body := do expecting .openingBrace openingBrace; bodyRest nested
        afterElse := elseItem nested }

/-- Reads a whole text. -/
def outline : Reader (List Item) := do
  let members ← items (nestedWithin nestingLimit)
  expecting .item <| afterBlanks endOfText
  return members

/-- The items of a text. -/
def readItems (source : String) : Except Error (List Item) :=
  let text := source.toList
  let refusal (place : List Char) (expected : Option Expected) : Error :=
    let start := byteCount text - byteCount place
    let width := (place.head?.map Char.utf8Size).getD 0
    .unexpected expected (.between start (start + width))
  match outline text with
  | .done members _ => .ok members
  | .refused place expected | .failed place expected =>
      .error (refusal place expected)

end Flowchart.Outline
