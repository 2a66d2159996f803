import Flowchart.Geometry.Point
import Flowchart.NodeId

/-!
The constructs of a program: what kinds there are, which places for children
each has, and how large the figure of each is drawn at least.
-/

namespace Flowchart

/-- Simple statements; all are drawn alike. -/
inductive StatementKind where
  | expression
  | variableDefinition
  | assignment
  | compoundAssignment
deriving DecidableEq, Repr, Inhabited

namespace StatementKind

def all : List StatementKind :=
  [.expression, .variableDefinition, .assignment, .compoundAssignment]

def name : StatementKind → String
  | .expression => "expression"
  | .variableDefinition => "variable-def"
  | .assignment => "assignment"
  | .compoundAssignment => "compound-assignment"

end StatementKind

inductive LoopKind where
  | whileHolds
  | forEach
deriving DecidableEq, Repr, Inhabited

inductive ContainerKind where
  | function
  | service
deriving DecidableEq, Repr, Inhabited

/-- What a construct is, without its text and children. -/
inductive Tag where
  | statement
  | block
  | decision
  | selection
  | loop (kind : LoopKind)
  | result
  | container (kind : ContainerKind)
  | typeDefinition
deriving DecidableEq, Repr, Inhabited

namespace Tag

def all : List Tag :=
  [.statement, .block, .decision, .selection, .loop .whileHolds,
    .loop .forEach, .result, .container .function, .container .service,
    .typeDefinition]

def name : Tag → String
  | .statement => "statement"
  | .block => "block"
  | .decision => "if"
  | .selection => "match"
  | .loop .whileHolds => "while"
  | .loop .forEach => "foreach"
  | .result => "return"
  | .container .function => "function"
  | .container .service => "service"
  | .typeDefinition => "type"

/-- Declarations stand beside each other at the top or in a service; control
flow does not run through them. -/
def isDeclaration : Tag → Bool
  | .container _ | .typeDefinition => true
  | _ => false

def isLoop : Tag → Bool
  | .loop _ => true
  | _ => false

end Tag

/-! ## Places for children -/

/-- A handle names a node of a tree by its position in it. -/
abbrev Handle := Nat

inductive SlotName where
  | consequent
  | alternative
  | arm (index : Nat)
  | body
  | member (index : Nat)
deriving DecidableEq, Repr, Inhabited

namespace SlotName

def text : SlotName → String
  | .consequent => "then"
  | .alternative => "else"
  | .arm index => "case-" ++ toString index
  | .body => "body"
  | .member index => "statement-" ++ toString index

end SlotName

/-- A place for a child and what fills it. -/
structure Slot where
  name : SlotName
  child : Option Handle
  required : Bool
deriving DecidableEq, Repr, Inhabited

/-- One arm of a selection. -/
structure Arm where
  pattern : String
  body : Option Handle
deriving DecidableEq, Repr, Inhabited

/-- A construct with handles for its children. -/
inductive Construct where
  | statement (kind : StatementKind)
  | block (members : List Handle)
  | decision (consequent alternative : Option Handle)
  | selection (arms : List Arm)
  | loop (kind : LoopKind) (body : Option Handle)
  | result
  | container (kind : ContainerKind) (body : Option Handle)
  | typeDefinition
deriving DecidableEq, Repr, Inhabited

namespace Construct

def tag : Construct → Tag
  | .statement _ => .statement
  | .block _ => .block
  | .decision _ _ => .decision
  | .selection _ => .selection
  | .loop kind _ => .loop kind
  | .result => .result
  | .container kind _ => .container kind
  | .typeDefinition => .typeDefinition

/-- The places for children in order, empty ones included. -/
def slots : Construct → List Slot
  | .block members =>
      members.mapIdx fun index child => ⟨.member index, some child, true⟩
  | .decision consequent alternative =>
      [⟨.consequent, consequent, true⟩, ⟨.alternative, alternative, false⟩]
  | .selection arms =>
      arms.mapIdx fun index arm => ⟨.arm index, arm.body, true⟩
  | .loop _ body | .container _ body => [⟨.body, body, true⟩]
  | .statement _ | .result | .typeDefinition => []

/-- The filled places in order. -/
def children (construct : Construct) : List (SlotName × Handle) :=
  construct.slots.filterMap fun slot =>
    slot.child.map fun child => (slot.name, child)

def statementKind? : Construct → Option StatementKind
  | .statement kind => some kind
  | _ => none

/-- The patterns of a selection. -/
def patterns : Construct → List String
  | .selection arms => arms.map Arm.pattern
  | _ => []

/-- Fills or clears a place that the construct has.  Members of a block are no
such places: they come and go with the block's list. -/
def setSlot? (construct : Construct) (name : SlotName)
    (child : Option Handle) : Option Construct :=
  match construct, name with
  | .decision _ alternative, .consequent => some (.decision child alternative)
  | .decision consequent _, .alternative => some (.decision consequent child)
  | .selection arms, .arm index =>
      arms[index]?.map fun arm =>
        .selection (arms.set index { arm with body := child })
  | .loop kind _, .body => some (.loop kind child)
  | .container kind _, .body => some (.container kind child)
  | _, _ => none

end Construct

/-! ## Sizes -/

/-- The smallest figure drawn for each group of constructs. -/
structure MinimumSizes (α : Type) where
  statement : Size α
  condition : Size α
  loopHeader : Size α
  terminal : Size α
  header : Size α
  typeDefinition : Size α
deriving DecidableEq, BEq, Repr, Inhabited

namespace MinimumSizes

variable {α : Type} [Scalar α]

def standard : MinimumSizes α :=
  let size (width height : Nat) : Size α :=
    ⟨Scalar.ofNat width, Scalar.ofNat height⟩
  { statement := size 160 36
    condition := size 120 56
    loopHeader := size 150 44
    terminal := size 120 32
    header := size 200 40
    typeDefinition := size 160 40 }

def forTag (sizes : MinimumSizes α) : Tag → Size α
  | .statement | .block => sizes.statement
  | .decision | .selection => sizes.condition
  | .loop _ => sizes.loopHeader
  | .result => sizes.terminal
  | .container _ => sizes.header
  | .typeDefinition => sizes.typeDefinition

/-- The sizes with the names they have in a configuration. -/
def toList (sizes : MinimumSizes α) : List (String × Size α) :=
  [("statement", sizes.statement), ("condition", sizes.condition),
    ("loop_header", sizes.loopHeader), ("terminal", sizes.terminal),
    ("header", sizes.header), ("type_definition", sizes.typeDefinition)]

/-- The size of the figure of a construct; a hint can only enlarge it.  A
block is drawn only while it is empty. -/
def figure (sizes : MinimumSizes α) (tag : Tag) (hint : Option (Size α)) :
    Size α :=
  match hint with
  | some hint => hint.max (sizes.forTag tag)
  | none => sizes.forTag tag

end MinimumSizes

end Flowchart
