import Flowchart.Diagram.Connector
import Flowchart.Program.Basic

/-!
The control flow of a program as edges between anchors.  Every construct is
wired by itself: flow enters at one anchor, and the exits that lead nowhere
yet are connected by whatever surrounds the construct.
-/

namespace Flowchart

/-- An exit that is not connected yet. -/
structure OpenExit where
  source : Endpoint
  kind : ConnectorKind
  label : Option String
deriving DecidableEq, Repr

namespace OpenExit

/-- Flow that just goes on is named for where it goes. -/
def kindTo (kind : ConnectorKind) (target : Endpoint) (targetTag : Tag) :
    ConnectorKind :=
  match kind, targetTag, target.anchor with
  | .sequential, .result, .entry => .result
  | .sequential, _, .loopBack => .loopBack
  | kind, _, _ => kind

/-- Connects an exit to an anchor of a node with a tag. -/
def connect (exit : OpenExit) (target : Endpoint) (targetTag : Tag) : Edge :=
  { source := exit.source
    target
    kind := kindTo exit.kind target targetTag
    label := exit.label
    reachable := true }

/-- Connects an exit to where flow enters a construct, if it does. -/
def connectTo (exit : OpenExit) (entry : Option (Endpoint × Tag)) :
    List Edge :=
  match entry with
  | some (target, targetTag) => [exit.connect target targetTag]
  | none => []

end OpenExit

/-- The wiring of a construct: its inner edges, the nodes in it where flow
starts by itself, where flow enters, and the exits left open. -/
structure Wiring where
  edges : List Edge
  starts : List NodeId
  entry : Option (Endpoint × Tag)
  exits : List OpenExit
deriving DecidableEq, Repr, Inhabited

namespace Wiring

def nothing : Wiring := ⟨[], [], none, []⟩

/-- The inside of a construct, cut off from what surrounds it. -/
def enclosed (wiring : Wiring) : Wiring :=
  { wiring with entry := none, exits := [] }

/-- A construct without children that flow passes through. -/
def passing (id : NodeId) (tag : Tag) : Wiring :=
  { nothing with
    entry := some (⟨id, .entry⟩, tag)
    exits := [⟨⟨id, .exit⟩, .sequential, none⟩] }

/-- Connects all open exits to one anchor. -/
def close (wiring : Wiring) (target : Endpoint) (targetTag : Tag) :
    List Edge :=
  wiring.exits.map fun exit => exit.connect target targetTag

/-- Two constructs one after the other. -/
def followedBy (first next : Wiring) : Wiring :=
  { edges :=
      first.edges ++ next.edges ++
        first.exits.flatMap fun exit => exit.connectTo next.entry
    starts := first.starts ++ next.starts
    entry := first.entry.or next.entry
    exits :=
      (if next.entry.isSome then [] else first.exits) ++ next.exits }

/-- Constructs one after the other. -/
def chain (members : List Wiring) : Wiring := members.foldl followedBy nothing

/-- Where flow enters a construct, it starts by itself. -/
def startingAtEntry (wiring : Wiring) : Wiring :=
  let entered := wiring.entry.toList.map fun entry => entry.1.node
  { wiring.enclosed with starts := wiring.starts ++ entered }

/-- Two constructs without flow between them. -/
def beside (first next : Wiring) : Wiring :=
  { nothing with
    edges := first.edges ++ next.edges
    starts := first.starts ++ next.starts }

/-- Members of a service: a flow starts at each. -/
def separate (members : List (Tag × NodeId × Wiring)) : Wiring :=
  members.foldl
    (fun before (tag, id, wiring) =>
      let declared := if tag.isDeclaration then [id] else []
      (before.beside { nothing with starts := declared }).beside
        wiring.startingAtEntry)
    nothing

/-- Members among which there are declarations: `run` are the members since
the last declaration, in order, and a flow starts at each run. -/
def runs (before : Wiring) (run : List Wiring) :
    List (Tag × NodeId × Wiring) → Wiring
  | [] => before.beside (chain run).startingAtEntry
  | (tag, id, wiring) :: rest =>
      if tag.isDeclaration then
        let declared := { nothing with starts := [id] }
        let before :=
          ((before.beside (chain run).startingAtEntry).beside declared).beside
            wiring.enclosed
        runs before [] rest
      else runs before (run ++ [wiring]) rest

/-- A construct whose branches come together at one anchor, and goes on from
there if any branch gets that far. -/
def merging (id : NodeId) (tag : Tag) (edges : List Edge)
    (starts : List NodeId) (merged : Bool) : Wiring :=
  { edges
    starts
    entry := some (⟨id, .entry⟩, tag)
    exits := if merged then [⟨⟨id, .merge⟩, .sequential, none⟩] else [] }

/-- The edges from a branch point into a branch, and those inside it and out
of it to where the branches merge. -/
def branchEdges (id : NodeId) (tag : Tag) (branch : OpenExit)
    (wiring : Wiring) : List Edge :=
  wiring.edges ++ branch.connectTo wiring.entry ++
    wiring.close ⟨id, .merge⟩ tag

def decision (id : NodeId) (consequent : Wiring) (alternative : Option Wiring) :
    Wiring :=
  let whenTrue : OpenExit :=
    ⟨⟨id, .branchTrue⟩, .branchTrue, some "true"⟩
  let whenFalse : OpenExit :=
    ⟨⟨id, .branchFalse⟩, .branchFalse, some "false"⟩
  let edges := branchEdges id .decision whenTrue consequent
  match alternative with
  | some alternative =>
      merging id .decision
        (edges ++ branchEdges id .decision whenFalse alternative)
        (consequent.starts ++ alternative.starts)
        (!consequent.exits.isEmpty || !alternative.exits.isEmpty)
  | none =>
      merging id .decision
        (edges ++ [whenFalse.connect ⟨id, .merge⟩ .decision])
        consequent.starts true

def selection (id : NodeId) (arms : List (String × Wiring)) : Wiring :=
  let armEdges := arms.mapIdx fun index (pattern, wiring) =>
    let branch : OpenExit :=
      ⟨⟨id, .arm index⟩, .branchArm index, some pattern⟩
    branchEdges id .selection branch wiring
  merging id .selection armEdges.flatten
    (arms.flatMap fun (_, wiring) => wiring.starts)
    (arms.any fun (_, wiring) => !wiring.exits.isEmpty)

def loop (id : NodeId) (kind : LoopKind) (body : Wiring) : Wiring :=
  let enter : OpenExit := ⟨⟨id, .branchTrue⟩, .loopEnter, none⟩
  { edges :=
      body.edges ++ enter.connectTo body.entry ++
        body.close ⟨id, .loopBack⟩ (.loop kind)
    starts := body.starts
    entry := some (⟨id, .entry⟩, .loop kind)
    exits := [⟨⟨id, .loopExit⟩, .loopExit, none⟩] }

def function (id : NodeId) (body : Wiring) : Wiring :=
  let begin_ : OpenExit := ⟨⟨id, .start⟩, .sequential, none⟩
  { nothing with
    edges :=
      body.edges ++ begin_.connectTo body.entry ++
        body.close ⟨id, .exit⟩ (.container .function)
    starts := body.starts }

end Wiring

namespace Program

mutual

/-- Wires a program of identities.  The members of a service's own block stand
each for itself. -/
def wire (inService : Bool) : Program NodeId → Wiring
  | .statement id _ => .passing id .statement
  | .result id => { Wiring.passing id .result with exits := [] }
  | .typeDefinition _ => .nothing
  | .block id [] => .passing id .block
  | .block _ (member :: rest) =>
      let members := wireMembers (member :: rest)
      if inService then .separate members
      else if members.any fun (tag, _) => tag.isDeclaration then
        .runs .nothing [] members
      else .chain (members.map fun (_, _, wiring) => wiring)
  | .decision id consequent none =>
      .decision id (wire false consequent) none
  | .decision id consequent (some alternative) =>
      .decision id (wire false consequent) (some (wire false alternative))
  | .selection id arms => .selection id (wireArms arms)
  | .loop id kind body => .loop id kind (wire false body)
  | .container id .function body => .function id (wire false body)
  | .container _ .service body => (wire true body).enclosed

def wireMembers : List (Program NodeId) → List (Tag × NodeId × Wiring)
  | [] => []
  | member :: rest =>
      (member.tag, member.label, wire false member) :: wireMembers rest

def wireArms : List (String × Program NodeId) → List (String × Wiring)
  | [] => []
  | (pattern, body) :: rest => (pattern, wire false body) :: wireArms rest

end

/-- All edges of a program and the nodes where flow starts. -/
def flow (program : Program NodeId) : List Edge × List NodeId :=
  let wiring := (wire false program).startingAtEntry
  let declared := if program.tag.isDeclaration then [program.label] else []
  (wiring.edges, declared ++ wiring.starts)

end Program

end Flowchart
