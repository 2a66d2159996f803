import Flowchart.Outline.Span

/-!
Why an outline is refused, and where.
-/

namespace Flowchart.Outline

/-- The quoted texts of an outline. -/
inductive Quoted where
  | statement
  | condition
  | armPattern
  | selectionSubject
  | loopCondition
  | loopHeader
  | functionSignature
  | serviceName
  | typeDefinition
deriving DecidableEq, Repr

namespace Quoted

def description : Quoted → String
  | .statement => "statement text in quotes"
  | .condition => "a condition in quotes"
  | .armPattern => "a case pattern in quotes"
  | .selectionSubject => "a match subject in quotes"
  | .loopCondition => "a loop condition in quotes"
  | .loopHeader => "a loop header in quotes"
  | .functionSignature => "a function signature in quotes"
  | .serviceName => "a service name in quotes"
  | .typeDefinition => "a type definition in quotes"

end Quoted

/-- What could have come next where reading stopped. -/
inductive Expected where
  | escape
  | closingQuote
  | quoted (what : Quoted)
  | semicolon
  | name
  | sizeAttribute
  | endOfSize
  | shallowerBody
  | openingBrace
  | itemOrClosingBrace
  | afterElse
  | armOrClosingBrace
  | item
deriving DecidableEq, Repr

namespace Expected

/-- What items start with. -/
def itemHelp : String :=
  "items start with `expr`, `let`, `assign`, `compound`, `return`, " ++
    "`if`, `match`, `while`, `foreach`, `function`, `service`, `type` or `\x7b`"

def description : Expected → String
  | .escape => "an escape sequence"
  | .closingQuote => "a closing `\"`"
  | .quoted what => what.description
  | .semicolon => "`;`"
  | .name => "a node id after `@`"
  | .sizeAttribute => "a size attribute"
  | .endOfSize => "`,` or `]`"
  | .shallowerBody => "a shallower body"
  | .openingBrace => "`\x7b`"
  | .itemOrClosingBrace => "an item or `\x7d`"
  | .afterElse => "`if` or `\x7b` after `else`"
  | .armOrClosingBrace => "`case` or `\x7d`"
  | .item => "an item"

def help : Expected → Option String
  | .escape =>
      some "valid escapes are `\\n`, `\\t`, `\\r`, `\\\"` and `\\\\`"
  | .closingQuote => some "string literals must end on the line they start"
  | .semicolon =>
      some "statements, returns and type definitions end with `;`"
  | .name => some "ids may contain letters, digits, `_`, `-` and `.`"
  | .sizeAttribute =>
      some ("size attributes look like `[width=120, height=40]` " ++
        "with finite, non-negative numbers")
  | .shallowerBody =>
      some ("bodies may nest at most 64 levels deep; " ++
        "move inner code into a function")
  | .itemOrClosingBrace | .item => some itemHelp
  | .armOrClosingBrace =>
      some "each arm looks like `case \"pattern\" \x7b ... \x7d`"
  | .quoted _ | .endOfSize | .openingBrace | .afterElse => none

end Expected

/-- An outline is refused where it cannot be read on, or for a name that is
given twice.  A range is empty at the end of the text only. -/
inductive Error where
  | unexpected (expected : Option Expected) (span : Span)
  | duplicateName (name : String) (span : Span)
deriving DecidableEq, Repr

namespace Error

def span : Error → Span
  | .unexpected _ span | .duplicateName _ span => span

def message : Error → String
  | .unexpected (some expected) _ => "expected " ++ expected.description
  | .unexpected none _ => "unexpected input"
  | .duplicateName name _ => "node id `" ++ name ++ "` is used more than once"

/-- A few words for the range that the error points at. -/
def label : Error → String
  | .unexpected _ span =>
      if span.isEmpty then "input ends here" else "unexpected input here"
  | .duplicateName _ _ => "duplicate id"

def help : Error → Option String
  | .unexpected (some expected) _ => expected.help
  | .unexpected none _ => some Expected.itemHelp
  | .duplicateName _ _ => some "ids given with `@` must be unique within a file"

end Error

end Flowchart.Outline
