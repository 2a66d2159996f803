/-!
Documents of nested elements, and how they are written.
-/

namespace Flowchart

inductive Markup where
  | text (content : String)
  | element (name : String) (attributes : List (String × String))
      (children : List Markup)
deriving BEq, Repr, Inhabited

namespace Markup

/-- What stands for a character between elements. -/
def escapedChar (c : Char) : String :=
  match c with
  | '&' => "&amp;"
  | '<' => "&lt;"
  | '>' => "&gt;"
  | c => c.toString

/-- What stands for a character in the value of an attribute. -/
def quotedChar (c : Char) : String :=
  match c with
  | '"' => "&quot;"
  | '\x27' => "&apos;"
  | c => escapedChar c

def escaped (content : String) : String :=
  String.join (content.toList.map escapedChar)

def quoted (value : String) : String :=
  String.join (value.toList.map quotedChar)

/-- Attributes in the order of their names, a blank before each. -/
def attributesText (attributes : List (String × String)) : String :=
  let ordered := attributes.mergeSort fun left right => decide (left.1 ≤ right.1)
  String.join <| ordered.map fun (name, value) =>
    " " ++ name ++ "=\"" ++ quoted value ++ "\""

mutual

/-- Every child begins on a line of its own, and so does the end of an element
with children. -/
def write : Markup → String
  | .text content => escaped content
  | .element name attributes children =>
      let opening := "<" ++ name ++ attributesText attributes
      match children with
      | [] => opening ++ "/>"
      | first :: rest =>
          opening ++ ">" ++ writeLines (first :: rest) ++ "\n</" ++ name ++ ">"

def writeLines : List Markup → String
  | [] => ""
  | child :: rest => "\n" ++ write child ++ writeLines rest

end

end Markup

end Flowchart
