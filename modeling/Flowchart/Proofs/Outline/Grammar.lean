import Flowchart.Outline.Item

/-!
# The grammar of outlines

Every part of the grammar relates a value, a text that starts with a way to
write it, and what is left of the text after it.  Blanks and comments may stand
before every word, mark and number; nothing is said of how a text is read.
-/

namespace Flowchart

def StatementKind.word : StatementKind → String
  | .expression => "expr"
  | .variableDefinition => "let"
  | .assignment => "assign"
  | .compoundAssignment => "compound"

def LoopKind.word : LoopKind → String
  | .whileHolds => "while"
  | .forEach => "foreach"

def ContainerKind.word : ContainerKind → String
  | .function => "function"
  | .service => "service"

namespace Outline

def Axis.word : Axis → String
  | .width => "width"
  | .height => "height"

/-! ## Words and marks -/

/-- A run of characters of a class does not go on at the front of a text. -/
def EndsRun (inRun : Char → Bool) (rest : List Char) : Prop :=
  ∀ c ∈ rest.head?, inRun c = false

/-- A longest run of characters of a class, at least one. -/
structure IsRun (inRun : Char → Bool) (text rest : List Char) : Prop where
  nonempty : text ≠ []
  all : ∀ c ∈ text, inRun c = true
  ends : EndsRun inRun rest

/-- Any number of blanks and comments.  A comment goes to the end of its line. -/
inductive Blanks : List Char → List Char → Prop where
  | nothing (text : List Char) : Blanks text text
  | blank {c : Char} {text rest : List Char} : isBlank c = true →
      Blanks text rest → Blanks (c :: text) rest
  | comment {line text rest : List Char} : '\n' ∉ line →
      (∀ c ∈ text.head?, c = '\n') → Blanks text rest →
        Blanks ('/' :: '/' :: (line ++ text)) rest

def Mark (mark : Char) (input rest : List Char) : Prop :=
  Blanks input (mark :: rest)

def Word (word : String) (input rest : List Char) : Prop :=
  Blanks input (word.toList ++ rest) ∧ EndsRun isWordChar rest

/-! ## Quoted texts and attributes -/

/-- What stands between quotes, and the closing quote. -/
inductive Content : List Char → List Char → List Char → Prop where
  | closed (rest : List Char) : Content [] ('"' :: rest) rest
  | escape {letter meant : Char} {text input rest : List Char} :
      escapes.lookup letter = some meant → Content text input rest →
        Content (meant :: text) ('\\' :: letter :: input) rest
  | plain {c : Char} {text input rest : List Char} : isPlain c = true →
      Content text input rest → Content (c :: text) (c :: input) rest

inductive Quotation : String → List Char → List Char → Prop where
  | quoted {text input start rest : List Char} : Mark '"' input start →
      Content text start rest → Quotation (String.ofList text) input rest

/-- A name follows its mark without a blank between them. -/
inductive NamePart : Option Name → List Char → List Char → Prop where
  | nothing (input : List Char) : NamePart none input input
  | name {text input rest : List Char} : Mark '@' input (text ++ rest) →
      IsRun isNameChar text rest →
        NamePart (some ⟨String.ofList text, byteCount rest⟩) input rest

/-- A longest run that reads as a finite number, which is not negative. -/
inductive Measure : Float32 → List Char → List Char → Prop where
  | number {text input rest : List Char} {number : Number.Decimal} :
      Blanks input (text ++ rest) → IsRun isNumberChar text rest →
        Number.Decimal.read? text = some number →
          number.toSingle.isFinite = true →
            Scalar.zero ≤ number.toSingle →
              Measure number.toSingle input rest

inductive Dimension : Axis × Float32 → List Char → List Char → Prop where
  | along {axis : Axis} {value : Float32} {input a b rest : List Char} :
      Word axis.word input a → Mark '=' a b → Measure value b rest →
        Dimension (axis, value) input rest

inductive Dimensions : List (Axis × Float32) → List Char → List Char → Prop where
  | single {dimension : Axis × Float32} {input rest : List Char} :
      Dimension dimension input rest → Dimensions [dimension] input rest
  | more {dimension : Axis × Float32} {others : List (Axis × Float32)}
      {input a b rest : List Char} : Dimension dimension input a →
        Mark ',' a b → Dimensions others b rest →
          Dimensions (dimension :: others) input rest

inductive SizePart : Option (Size Float32) → List Char → List Char → Prop where
  | nothing (input : List Char) : SizePart none input input
  | size {dimensions : List (Axis × Float32)} {input a b rest : List Char} :
      Mark '[' input a → Dimensions dimensions a b → Mark ']' b rest →
        SizePart (some (sizeOf dimensions)) input rest

inductive Given : Attributes → List Char → List Char → Prop where
  | both {name : Option Name} {hint : Option (Size Float32)}
      {input a rest : List Char} : NamePart name input a →
        SizePart hint a rest → Given ⟨name, hint⟩ input rest

/-! ## Items -/

/-- The parts of an outline that hold items. -/
inductive Phrase where
  | items (members : List Item)
  | item (item : Item)
  | decision (decision : Item)
  | elsePart (alternative : Option Item)
  | alternative (alternative : Item)
  | arms (arms : List (String × Item))
  | body (members : List Item)

/-- A phrase is written at the front of a text. -/
inductive Derives : Phrase → List Char → List Char → Prop where
  | noItems (input : List Char) : Derives (.items []) input input
  | items {item : Item} {members : List Item} {input a rest : List Char} :
      Derives (.item item) input a → Derives (.items members) a rest →
        Derives (.items (item :: members)) input rest
  | statement {kind : StatementKind} {text : String} {given : Attributes}
      {input a b c rest : List Char} : Word kind.word input a →
        Quotation text a b → Given given b c → Mark ';' c rest →
          Derives (.item (.statement (.ofText text given) kind)) input rest
  | result {text : String} {given : Attributes} {input a b c rest : List Char} :
      Word "return" input a → Quotation text a b → Given given b c →
        Mark ';' c rest →
          Derives (.item (.result (.ofText text given))) input rest
  | emptyResult {given : Attributes} {input a b rest : List Char} :
      Word "return" input a → Given given a b → Mark ';' b rest →
        Derives (.item (.result (.ofText "" given))) input rest
  | typeDefinition {text : String} {given : Attributes}
      {input a b c rest : List Char} : Word "type" input a →
        Quotation text a b → Given given b c → Mark ';' c rest →
          Derives (.item (.typeDefinition (.ofText text given))) input rest
  | decisionItem {decision : Item} {input rest : List Char} :
      Derives (.decision decision) input rest →
        Derives (.item decision) input rest
  | selection {text : String} {given : Attributes} {arms : List (String × Item)}
      {input a b c d e rest : List Char} : Word "match" input a →
        Quotation text a b → Given given b c → Mark '\x7b' c d →
          Derives (.arms arms) d e → Mark '\x7d' e rest →
            Derives (.item (.selection (.ofText text given) arms)) input rest
  | loop {kind : LoopKind} {text : String} {given : Attributes}
      {members : List Item} {input a b c rest : List Char} :
      Word kind.word input a → Quotation text a b → Given given b c →
        Derives (.body members) c rest →
          Derives (.item (.loop (.ofText text given) kind (blockOf members)))
            input rest
  | container {kind : ContainerKind} {text : String} {given : Attributes}
      {members : List Item} {input a b c rest : List Char} :
      Word kind.word input a → Quotation text a b → Given given b c →
        Derives (.body members) c rest →
          Derives
            (.item (.container (.ofText text given) kind (blockOf members)))
            input rest
  | block {given : Attributes} {members : List Item}
      {input a b rest : List Char} : Word "block" input a → Given given a b →
        Derives (.body members) b rest →
          Derives (.item (.block (.ofText "" given) members)) input rest
  | bareBlock {members : List Item} {input rest : List Char} :
      Derives (.body members) input rest →
        Derives (.item (blockOf members)) input rest
  | decision {text : String} {given : Attributes} {members : List Item}
      {alternative : Option Item} {input a b c d rest : List Char} :
      Word "if" input a → Quotation text a b → Given given b c →
        Derives (.body members) c d → Derives (.elsePart alternative) d rest →
          Derives
            (.decision
              (.decision (.ofText text given) (blockOf members) alternative))
            input rest
  | noElse (input : List Char) : Derives (.elsePart none) input input
  | elsePart {alternative : Item} {input a rest : List Char} :
      Word "else" input a → Derives (.alternative alternative) a rest →
        Derives (.elsePart (some alternative)) input rest
  | elseDecision {decision : Item} {input rest : List Char} :
      Derives (.decision decision) input rest →
        Derives (.alternative decision) input rest
  | elseBlock {given : Attributes} {members : List Item}
      {input a rest : List Char} : Given given input a →
        Derives (.body members) a rest →
          Derives (.alternative (.block (.ofText "" given) members)) input rest
  | noArms (input : List Char) : Derives (.arms []) input input
  | arms {pattern : String} {given : Attributes} {members : List Item}
      {arms : List (String × Item)} {input a b c d rest : List Char} :
      Word "case" input a → Quotation pattern a b → Given given b c →
        Derives (.body members) c d → Derives (.arms arms) d rest →
          Derives (.arms ((pattern, .block (.ofText "" given) members) :: arms))
            input rest
  | body {members : List Item} {input a b rest : List Char} :
      Mark '\x7b' input a → Derives (.items members) a b → Mark '\x7d' b rest →
        Derives (.body members) input rest

/-- A whole text is an outline of these items. -/
def IsOutline (text : List Char) (members : List Item) : Prop :=
  ∃ rest, Derives (.items members) text rest ∧ Blanks rest []

/-! ## Nesting -/

mutual

/-- How deep bodies nest in an item.  A decision after `else` lies one level
deeper than the one it belongs to, as a block there does. -/
def nesting : Item → Nat
  | .statement _ _ | .result _ | .typeDefinition _ => 0
  | .block _ members => nestingOfMembers members + 1
  | .decision _ consequent none => nesting consequent
  | .decision _ consequent (some alternative) =>
      max (nesting consequent)
        (if alternative.tag = .decision then nesting alternative + 1
          else nesting alternative)
  | .selection _ arms => nestingOfArms arms
  | .loop _ _ body | .container _ _ body => nesting body

def nestingOfMembers : List Item → Nat
  | [] => 0
  | member :: rest => max (nesting member) (nestingOfMembers rest)

def nestingOfArms : List (String × Item) → Nat
  | [] => 0
  | (_, body) :: rest => max (nesting body) (nestingOfArms rest)

end

def nestingAfterElse (alternative : Item) : Nat :=
  if alternative.tag = .decision then nesting alternative + 1
  else nesting alternative

def Phrase.nesting : Phrase → Nat
  | .items members => nestingOfMembers members
  | .item program | .decision program => Outline.nesting program
  | .elsePart none => 0
  | .elsePart (some program) | .alternative program => nestingAfterElse program
  | .arms bodies => nestingOfArms bodies
  | .body members => nestingOfMembers members + 1

end Outline

end Flowchart
