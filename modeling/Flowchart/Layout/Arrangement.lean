import Flowchart.Diagram.Fault
import Flowchart.Geometry.Rect
import Flowchart.Program.Stored
import Flowchart.Settings.Layout

/-!
Measures of programs.  An arrangement gives every node a size, a spine (the
vertical line that flow runs along), a figure, anchors and the places of its
children, all seen from the top left corner of the node itself.  So it depends
on nothing outside the node.
-/

namespace Flowchart

open Scalar

/-- The measures of one node.  A block with members has no figure of its
own. -/
structure Frame (α : Type) where
  id : NodeId
  text : String
  size : Size α
  spine : α
  figure : Option (Rect α)
  anchors : List (Anchor × Point α)
  /-- The top left corners of the children, in their order. -/
  offsets : List (Point α)
deriving DecidableEq, BEq, Repr, Inhabited

/-- A program with the measures of every node. -/
abbrev Arrangement (α : Type) : Type := Program (Frame α)

namespace Frame

variable {α : Type} [Scalar α]

/-- How far a node reaches to the right of its spine. -/
def rightOfSpine (frame : Frame α) : α := frame.size.width - frame.spine

/-- A figure in the middle over a spine, with its top edge at `top`. -/
def figureOn (spine top : α) (size : Size α) : Rect α :=
  .ofTopLeft ⟨spine - half size.width, top⟩ size

/-- A node that is its figure: flow enters above and, if it goes on, leaves
below. -/
def leaf (label : Label α) (size : Size α) (goesOn : Bool) : Frame α :=
  let spine := half size.width
  let exits : List (Anchor × Point α) :=
    if goesOn then [(.exit, ⟨spine, size.height⟩)] else []
  { id := label.id
    text := label.text
    size
    spine
    figure := some (.ofTopLeft .origin size)
    anchors := (.entry, ⟨spine, zero⟩) :: exits
    offsets := [] }

/-- The top edges of nodes stacked with a gap below each, from `top` on. -/
def stackTops (gap : α) : α → List (Frame α) → List α
  | _, [] => []
  | top, frame :: rest =>
      top :: stackTops gap (top + (frame.size.height + gap)) rest

/-- Where a stack of nodes ends, the gap below the last one included. -/
def stackEnd (gap top : α) (frames : List (Frame α)) : α :=
  frames.foldl (fun top frame => top + (frame.size.height + gap)) top

/-- Members from top to bottom, with their spines on one line. -/
def column (label : Label α) (gap : α) (members : List (Frame α)) : Frame α :=
  let left := largest zero (members.map Frame.spine)
  let right := largest zero (members.map rightOfSpine)
  let height := larger (stackEnd gap zero members - gap) zero
  { id := label.id
    text := label.text
    size := ⟨left + right, height⟩
    spine := left
    figure := none
    anchors := [(.entry, ⟨left, zero⟩), (.exit, ⟨left, height⟩)]
    offsets :=
      members.zipWith (fun member top => ⟨left - member.spine, top⟩)
        (stackTops gap zero members) }

/-- A condition with the consequent below it on the same spine and the
alternative, or a lane past both, to the right. -/
def decision (label : Label α) (figureSize : Size α)
    (settings : LayoutSettings α) (consequent : Frame α)
    (alternative : Option (Frame α)) : Frame α :=
  let gap := settings.statementSpacing
  let halfFigure := half figureSize.width
  let spine := larger consequent.spine halfFigure
  let right := spine + larger consequent.rightOfSpine halfFigure
  let columnTop := figureSize.height + gap
  let beside := right + settings.branchGap
  let width :=
    match alternative with
    | some alternative => beside + alternative.size.width
    | none => beside
  let tallest :=
    match alternative with
    | some alternative =>
        larger consequent.size.height alternative.size.height
    | none => consequent.size.height
  let height := columnTop + tallest + gap
  let figure := figureOn spine zero figureSize
  { id := label.id
    text := label.text
    size := ⟨width, height⟩
    spine
    figure := some figure
    anchors :=
      [(.entry, ⟨spine, zero⟩), (.branchTrue, ⟨spine, figure.maxY⟩),
        (.branchFalse, ⟨figure.maxX, figure.center.y⟩),
        (.merge, ⟨spine, height⟩)]
    offsets :=
      ⟨spine - consequent.spine, columnTop⟩ ::
        if alternative.isSome then [⟨beside, columnTop⟩] else [] }

/-- The left edges of nodes side by side with a gap after each. -/
def rowLefts (gap : α) : α → List (Frame α) → List α
  | _, [] => []
  | left, frame :: rest =>
      left :: rowLefts gap (left + (frame.size.width + gap)) rest

/-- The width of nodes side by side with a gap between each two. -/
def rowWidth (gap : α) (frames : List (Frame α)) : α :=
  let gaps := larger (ofNat frames.length - ofNat 1) zero
  sum (frames.map fun frame => frame.size.width) + gap * gaps

/-- A subject in the middle over a row of arms. -/
def selection (label : Label α) (figureSize : Size α)
    (settings : LayoutSettings α) (arms : List (Frame α)) : Frame α :=
  let gap := settings.statementSpacing
  let armsWidth := rowWidth settings.branchGap arms
  let tallest := largest zero (arms.map fun arm => arm.size.height)
  let width := larger armsWidth figureSize.width
  let columnTop := figureSize.height + gap
  let height := columnTop + tallest + gap
  let spine := half width
  let figure := figureOn spine zero figureSize
  let armAnchors : List (Anchor × Point α) :=
    (List.range arms.length).map fun index =>
      (.arm index, ⟨spine, figure.maxY⟩)
  { id := label.id
    text := label.text
    size := ⟨width, height⟩
    spine
    figure := some figure
    anchors :=
      (.entry, ⟨spine, zero⟩) :: armAnchors ++ [(.merge, ⟨spine, height⟩)]
    offsets :=
      (rowLefts settings.branchGap (half (width - armsWidth)) arms).map
        fun left => ⟨left, columnTop⟩ }

/-- A head over the body, with a lane on either side: flow goes back on the
left and out on the right. -/
def loop (label : Label α) (figureSize : Size α) (settings : LayoutSettings α)
    (body : Frame α) : Frame α :=
  let gap := settings.statementSpacing
  let clearance := settings.loopClearance
  let halfFigure := half figureSize.width
  let spine := clearance + larger body.spine halfFigure
  let width := spine + larger body.rightOfSpine halfFigure + clearance
  let columnTop := figureSize.height + gap
  let height := columnTop + body.size.height + gap
  let figure := figureOn spine zero figureSize
  let middle := figure.center.y
  { id := label.id
    text := label.text
    size := ⟨width, height⟩
    spine
    figure := some figure
    anchors :=
      [(.entry, ⟨spine, zero⟩), (.branchTrue, ⟨spine, figure.maxY⟩),
        (.loopBack, ⟨figure.minX, middle⟩), (.loopExit, ⟨figure.maxX, middle⟩)]
    offsets := [⟨spine - body.spine, columnTop⟩] }

/-- A header over the body with padding around both.  Flow begins and ends
inside a function; a service has none. -/
def container (label : Label α) (figureSize : Size α)
    (settings : LayoutSettings α) (kind : ContainerKind) (body : Frame α) :
    Frame α :=
  let gap := settings.statementSpacing
  let padding := settings.padding
  let halfFigure := half figureSize.width
  let spine := padding.left + larger body.spine halfFigure
  let width := spine + larger body.rightOfSpine halfFigure + padding.right
  let bodyTop := padding.top + figureSize.height + gap
  let bodyBottom := bodyTop + body.size.height
  let exitY := bodyBottom + gap
  let figure := figureOn spine padding.top figureSize
  let (height, anchors) : α × List (Anchor × Point α) :=
    match kind with
    | .function =>
        (exitY + padding.bottom,
          [(.start, ⟨spine, figure.maxY⟩), (.exit, ⟨spine, exitY⟩)])
    | .service => (bodyBottom + padding.bottom, [])
  { id := label.id
    text := label.text
    size := ⟨width, height⟩
    spine
    figure := some figure
    anchors
    offsets := [⟨spine - body.spine, bodyTop⟩] }

/-- Passes measures that are finite and not negative. -/
def checked (frame : Frame α) : Except Fault (Frame α) :=
  if !frame.size.isValid || !isFinite frame.spine then
    .error (.invalidGeometry frame.id)
  else .ok frame

end Frame

/-! ## Nodes from measured children -/

namespace Arrangement

variable {α : Type} [Scalar α] (settings : LayoutSettings α)

/-- The size of the figure of a node. -/
def figureSize (tag : Tag) (label : Label α) : Size α :=
  settings.minimumSizes.figure tag label.hint

def ofStatement (label : Label α) (kind : StatementKind) :
    Except Fault (Arrangement α) := do
  let size := figureSize settings .statement label
  return Program.statement (← (Frame.leaf label size true).checked) kind

def ofResult (label : Label α) : Except Fault (Arrangement α) := do
  let size := figureSize settings .result label
  return Program.result (← (Frame.leaf label size false).checked)

def ofTypeDefinition (label : Label α) : Except Fault (Arrangement α) := do
  let size := figureSize settings .typeDefinition label
  return Program.typeDefinition (← (Frame.leaf label size true).checked)

/-- A block without members is a leaf with a figure in its place. -/
def ofBlock (label : Label α) (members : List (Arrangement α)) :
    Except Fault (Arrangement α) := do
  let frame :=
    if members.isEmpty then
      Frame.leaf label (figureSize settings .block label) true
    else
      Frame.column label settings.statementSpacing
        (members.map Program.label)
  return Program.block (← frame.checked) members

def ofDecision (label : Label α) (consequent : Arrangement α)
    (alternative : Option (Arrangement α)) : Except Fault (Arrangement α) := do
  let size := figureSize settings .decision label
  let frame := Frame.decision label size settings consequent.label
    (alternative.map Program.label)
  return Program.decision (← frame.checked) consequent alternative

def ofSelection (label : Label α) (arms : List (String × Arrangement α)) :
    Except Fault (Arrangement α) := do
  let size := figureSize settings .selection label
  let frame := Frame.selection label size settings
    (arms.map fun (_, body) => body.label)
  return Program.selection (← frame.checked) arms

def ofLoop (label : Label α) (kind : LoopKind) (body : Arrangement α) :
    Except Fault (Arrangement α) := do
  let size := figureSize settings (.loop kind) label
  let frame := Frame.loop label size settings body.label
  return Program.loop (← frame.checked) kind body

def ofContainer (label : Label α) (kind : ContainerKind) (body : Arrangement α) :
    Except Fault (Arrangement α) := do
  let size := figureSize settings (.container kind) label
  let frame := Frame.container label size settings kind body.label
  return Program.container (← frame.checked) kind body

end Arrangement

end Flowchart
