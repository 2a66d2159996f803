import Flowchart.NodeId

/-!
Connectors between nodes: the points of a node that they attach to, and what
part they play in the control flow.
-/

namespace Flowchart

/-- A point of a node where connectors end. -/
inductive Anchor where
  /-- The top of a construct, where flow arrives. -/
  | entry
  /-- The bottom of a statement, or the end of a function. -/
  | exit
  /-- Where a condition that holds leads on, also into the body of a loop. -/
  | branchTrue
  /-- Where a condition that fails leads on. -/
  | branchFalse
  /-- Where a selection leads to one of its arms. -/
  | arm (index : Nat)
  /-- Where flow comes back to the head of a loop. -/
  | loopBack
  /-- Where flow leaves a loop. -/
  | loopExit
  /-- Where the columns of a construct come together. -/
  | merge
  /-- Where the flow of a function begins. -/
  | start
deriving DecidableEq, Repr, Inhabited

namespace Anchor

def text : Anchor → String
  | .entry => "entry"
  | .exit => "exit"
  | .branchTrue => "branch-true"
  | .branchFalse => "branch-false"
  | .arm index => "case-" ++ toString index
  | .loopBack => "loop-back"
  | .loopExit => "loop-exit"
  | .merge => "merge"
  | .start => "start"

end Anchor

/-- The part of a connector in the control flow. -/
inductive ConnectorKind where
  | sequential
  | branchTrue
  | branchFalse
  | branchArm (index : Nat)
  | loopEnter
  | loopBack
  | loopExit
  /-- Flow into the end of a function's run. -/
  | result
deriving DecidableEq, Repr, Inhabited

namespace ConnectorKind

def text : ConnectorKind → String
  | .sequential => "sequential"
  | .branchTrue => "branch-true"
  | .branchFalse => "branch-false"
  | .branchArm index => "branch-case(" ++ toString index ++ ")"
  | .loopEnter => "loop-enter"
  | .loopBack => "loop-back"
  | .loopExit => "loop-exit"
  | .result => "return"

/-- Lateral connectors leave sideways and run down a lane of their own. -/
def isLateral : ConnectorKind → Bool
  | .branchFalse | .loopExit => true
  | _ => false

end ConnectorKind

structure Endpoint where
  node : NodeId
  anchor : Anchor
deriving DecidableEq, Repr, Inhabited

namespace Endpoint

def text (endpoint : Endpoint) : String :=
  endpoint.node ++ ":" ++ endpoint.anchor.text

end Endpoint

/-- A directed connection of two anchors, with what is written beside it. -/
structure Edge where
  source : Endpoint
  target : Endpoint
  kind : ConnectorKind
  label : Option String
  reachable : Bool
deriving DecidableEq, Repr, Inhabited

end Flowchart
