import Flowchart.Layout.Arrangement

/-!
Diagrams: nodes with their places in the plane, and the edges between them.
-/

namespace Flowchart

structure DiagramNode (α : Type) where
  id : NodeId
  tag : Tag
  text : String
  /-- The node with everything in it. -/
  bounds : Rect α
  /-- What is drawn for the node itself, if anything is. -/
  figure : Option (Rect α)
  anchors : List (Anchor × Point α)
  parent : Option NodeId
  depth : Nat
  reachable : Bool
deriving DecidableEq, BEq, Repr

namespace DiagramNode

def anchor? {α : Type} (node : DiagramNode α) (anchor : Anchor) :
    Option (Point α) :=
  node.anchors.lookup anchor

end DiagramNode

/-- Nodes are listed with parents before their children. -/
structure Diagram (α : Type) where
  root : NodeId
  bounds : Rect α
  nodes : List (DiagramNode α)
  edges : List Edge
deriving DecidableEq, BEq, Repr

namespace Diagram

variable {α : Type} (diagram : Diagram α)

def node? (id : NodeId) : Option (DiagramNode α) :=
  diagram.nodes.find? fun node => node.id = id

def children (id : NodeId) : List (DiagramNode α) :=
  diagram.nodes.filter fun node => node.parent = some id

def edgesFrom (id : NodeId) : List Edge :=
  diagram.edges.filter fun edge => edge.source.node = id

def edgesTo (id : NodeId) : List Edge :=
  diagram.edges.filter fun edge => edge.target.node = id

/-- Where an endpoint lies in the plane. -/
def anchor? (endpoint : Endpoint) : Option (Point α) :=
  (diagram.node? endpoint.node).bind fun node => node.anchor? endpoint.anchor

end Diagram

/-! ## Nodes of an arrangement -/

namespace Arrangement

variable {α : Type} [Scalar α]

/-- The node of a frame whose top left corner lies at `origin`. -/
def nodeAt (origin : Point α) (parent : Option NodeId) (depth : Nat) (tag : Tag)
    (frame : Frame α) : DiagramNode α :=
  { id := frame.id
    tag
    text := frame.text
    bounds := .ofTopLeft origin frame.size
    figure := frame.figure.map fun figure => figure.translate origin
    anchors := frame.anchors.map fun (anchor, point) => (anchor, point + origin)
    parent
    depth
    reachable := false }

/-- The corner of the child at a place among its siblings. -/
def childOrigin (origin : Point α) (frame : Frame α) (place : Nat) : Point α :=
  origin + (frame.offsets[place]?.getD .origin)

mutual

/-- The nodes of an arrangement in the plane, parents before children. -/
def place (origin : Point α) (parent : Option NodeId) (depth : Nat) :
    Arrangement α → List (DiagramNode α)
  | .statement frame _ => [nodeAt origin parent depth .statement frame]
  | .result frame => [nodeAt origin parent depth .result frame]
  | .typeDefinition frame => [nodeAt origin parent depth .typeDefinition frame]
  | .block frame members =>
      nodeAt origin parent depth .block frame ::
        placeMembers origin frame (depth + 1) 0 members
  | .decision frame consequent none =>
      nodeAt origin parent depth .decision frame ::
        place (childOrigin origin frame 0) (some frame.id) (depth + 1) consequent
  | .decision frame consequent (some alternative) =>
      nodeAt origin parent depth .decision frame ::
        (place (childOrigin origin frame 0) (some frame.id) (depth + 1)
            consequent ++
          place (childOrigin origin frame 1) (some frame.id) (depth + 1)
            alternative)
  | .selection frame arms =>
      nodeAt origin parent depth .selection frame ::
        placeArms origin frame (depth + 1) 0 arms
  | .loop frame kind body =>
      nodeAt origin parent depth (.loop kind) frame ::
        place (childOrigin origin frame 0) (some frame.id) (depth + 1) body
  | .container frame kind body =>
      nodeAt origin parent depth (.container kind) frame ::
        place (childOrigin origin frame 0) (some frame.id) (depth + 1) body

def placeMembers (origin : Point α) (frame : Frame α) (depth index : Nat) :
    List (Arrangement α) → List (DiagramNode α)
  | [] => []
  | member :: rest =>
      place (childOrigin origin frame index) (some frame.id) depth member ++
        placeMembers origin frame depth (index + 1) rest

def placeArms (origin : Point α) (frame : Frame α) (depth index : Nat) :
    List (String × Arrangement α) → List (DiagramNode α)
  | [] => []
  | (_, body) :: rest =>
      place (childOrigin origin frame index) (some frame.id) depth body ++
        placeArms origin frame depth (index + 1) rest

end

/-- The children of a node with their places. -/
def childBounds (origin : Point α) (frame : Frame α)
    (children : List (Arrangement α)) : List (NodeId × Rect α) :=
  children.mapIdx fun index child =>
    (child.label.id,
      Rect.ofTopLeft (childOrigin origin frame index) child.label.size)

/-- The first two places that overlap. -/
def firstOverlap? : List (NodeId × Rect α) → Option (NodeId × NodeId)
  | [] => none
  | (first, bounds) :: rest =>
      match rest.find? fun (_, other) => bounds.overlaps other with
      | some (second, _) => some (first, second)
      | none => firstOverlap? rest

mutual

/-- Two siblings that overlap, looked for in parents before their children. -/
def overlap? (origin : Point α) : Arrangement α → Option (NodeId × NodeId)
  | .statement _ _ | .result _ | .typeDefinition _ => none
  | .block frame members =>
      firstOverlap? (childBounds origin frame members) <|>
        membersOverlap? origin frame 0 members
  | .decision frame consequent none =>
      overlap? (childOrigin origin frame 0) consequent
  | .decision frame consequent (some alternative) =>
      firstOverlap? (childBounds origin frame [consequent, alternative]) <|>
        overlap? (childOrigin origin frame 0) consequent <|>
        overlap? (childOrigin origin frame 1) alternative
  | .selection frame arms =>
      firstOverlap? (childBounds origin frame (arms.map Prod.snd)) <|>
        armsOverlap? origin frame 0 arms
  | .loop frame _ body | .container frame _ body =>
      overlap? (childOrigin origin frame 0) body

def membersOverlap? (origin : Point α) (frame : Frame α) (index : Nat) :
    List (Arrangement α) → Option (NodeId × NodeId)
  | [] => none
  | member :: rest =>
      overlap? (childOrigin origin frame index) member <|>
        membersOverlap? origin frame (index + 1) rest

def armsOverlap? (origin : Point α) (frame : Frame α) (index : Nat) :
    List (String × Arrangement α) → Option (NodeId × NodeId)
  | [] => none
  | (_, body) :: rest =>
      overlap? (childOrigin origin frame index) body <|>
        armsOverlap? origin frame (index + 1) rest

end

end Arrangement

end Flowchart
