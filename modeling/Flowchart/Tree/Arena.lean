import Flowchart.Tree.Construct

/-!
Editable trees.  Nodes lie in one array and refer to their children by
position, so that a tree may well be malformed: handles can lead nowhere, share
a child or run in a circle.
-/

namespace Flowchart

/-- A node without its children: an identity, the text drawn in it, and the
size it asks for. -/
structure Label (α : Type) where
  id : NodeId
  text : String
  hint : Option (Size α)
deriving DecidableEq, BEq, Repr, Inhabited

namespace Label

variable {α : Type} [Scalar α]

/-- The greatest width and height that a node may ask for. -/
def greatestHint : Nat := 10000

/-- Whether the size asked for, if any, is within bounds. -/
def hasValidHint (label : Label α) : Bool :=
  match label.hint with
  | none => true
  | some hint =>
      hint.isValid && decide (hint.width ≤ Scalar.ofNat greatestHint) &&
        decide (hint.height ≤ Scalar.ofNat greatestHint)

end Label

structure Node (α : Type) extends Label α where
  construct : Construct
deriving DecidableEq, BEq, Repr, Inhabited

namespace Node

def tag {α : Type} (node : Node α) : Tag := node.construct.tag

end Node

structure Tree (α : Type) where
  nodes : Array (Node α)
  root : Option Handle
deriving DecidableEq, BEq, Repr, Inhabited

namespace Tree

variable {α : Type}

def empty : Tree α := ⟨#[], none⟩

def size (tree : Tree α) : Nat := tree.nodes.size

def node? (tree : Tree α) (handle : Handle) : Option (Node α) :=
  tree.nodes[handle]?

/-- The children of a node in order; a handle that leads nowhere has none. -/
def children (tree : Tree α) (handle : Handle) : List (SlotName × Handle) :=
  match tree.node? handle with
  | some node => node.construct.children
  | none => []

/-- Stores a node.  It is out of reach until another node refers to it. -/
def add (tree : Tree α) (node : Node α) : Handle × Tree α :=
  (tree.size, { tree with nodes := tree.nodes.push node })

def setRoot (tree : Tree α) (root : Handle) : Tree α :=
  { tree with root := some root }

/-- Changes a node in place, if the handle leads to one. -/
def modify (tree : Tree α) (handle : Handle) (change : Node α → Node α) :
    Tree α :=
  { tree with nodes := tree.nodes.modify handle change }

/-- Replaces the construct of a node in place. -/
def setConstruct (tree : Tree α) (handle : Handle) (construct : Construct) :
    Tree α :=
  tree.modify handle fun node => { node with construct }

/-- The members of a block. -/
def members? (tree : Tree α) (handle : Handle) : Option (List Handle) :=
  match tree.node? handle with
  | some node =>
      match node.construct with
      | .block members => some members
      | _ => none
  | none => none

/-- Puts a statement into a block before the member at `index`, or at the end
if there is no such member. -/
def insertStatement? (tree : Tree α) (block : Handle) (index : Nat)
    (statement : Handle) : Option (Tree α) :=
  (tree.members? block).map fun members =>
    let (before, after) := members.splitAt index
    tree.setConstruct block (.block (before ++ statement :: after))

/-- Adds a statement at the end of a block. -/
def pushStatement? (tree : Tree α) (block statement : Handle) :
    Option (Tree α) :=
  (tree.members? block).map fun members =>
    tree.setConstruct block (.block (members ++ [statement]))

/-- Takes the statement at `index` out of a block; its node stays stored. -/
def removeStatement? (tree : Tree α) (block : Handle) (index : Nat) :
    Option (Handle × Tree α) :=
  match tree.members? block with
  | some members =>
      members[index]?.map fun statement =>
        (statement, tree.setConstruct block (.block (members.eraseIdx index)))
  | none => none

/-- Fills or clears a place of a node, if it has such a place. -/
def setSlot? (tree : Tree α) (parent : Handle) (name : SlotName)
    (child : Option Handle) : Option (Tree α) :=
  match tree.node? parent with
  | some node =>
      (node.construct.setSlot? name child).map (tree.setConstruct parent)
  | none => none

def setText (tree : Tree α) (handle : Handle) (text : String) : Tree α :=
  tree.modify handle fun node => { node with text }

def setHint (tree : Tree α) (handle : Handle) (hint : Option (Size α)) :
    Tree α :=
  tree.modify handle fun node => { node with hint }

end Tree

end Flowchart
