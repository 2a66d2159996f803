import Flowchart.Tree.Walk

/-!
When a tree is well formed: every node hangs in one place, identities are
distinct, and every construct has what it needs and stands where it may.
`Tree.validate` goes through a tree in the order of the walk and reports the
first defect.
-/

namespace Flowchart

/-- What is wrong with a tree. -/
inductive Defect where
  | emptyTree
  | danglingReference (parent : NodeId) (slot : SlotName) (child : Handle)
  | sharedNode (id : NodeId)
  | cycle (id : NodeId)
  | duplicateId (id : NodeId)
  | missingSlot (id : NodeId) (tag : Tag) (slot : SlotName)
  | emptySelection (id : NodeId)
  | misplacedDeclaration (id : NodeId) (tag : Tag)
  | tooDeep (id : NodeId) (limit : Nat)
  | invalidHint (id : NodeId)
deriving DecidableEq, Repr

namespace Defect

/-- The node that a defect is found at. -/
def node? : Defect → Option NodeId
  | .emptyTree => none
  | .danglingReference id _ _ | .sharedNode id | .cycle id | .duplicateId id
  | .missingSlot id _ _ | .emptySelection id | .misplacedDeclaration id _
  | .tooDeep id _ | .invalidHint id => some id

def message : Defect → String
  | .emptyTree => "syntax tree has no root node"
  | .danglingReference parent slot child =>
      "node `" ++ parent ++ "` refers to missing node #" ++ toString child ++
        " in slot " ++ slot.text
  | .sharedNode id => "node `" ++ id ++ "` is owned by more than one parent"
  | .cycle id => "node `" ++ id ++ "` is its own ancestor"
  | .duplicateId id =>
      "identity `" ++ id ++ "` is used by more than one node"
  | .missingSlot id tag slot =>
      tag.name ++ " `" ++ id ++ "` is missing its required " ++ slot.text ++
        " slot"
  | .emptySelection id => "match `" ++ id ++ "` has no cases"
  | .misplacedDeclaration id tag =>
      tag.name ++ " `" ++ id ++ "` cannot appear inside control flow"
  | .tooDeep id limit =>
      "node `" ++ id ++ "` is nested deeper than the limit of " ++
        toString limit
  | .invalidHint id =>
      "node `" ++ id ++ "` has a size hint outside 0..=" ++
        toString (Label.greatestHint)

end Defect

namespace Tree

variable {α : Type} [Scalar α]

/-- What is left to do while a tree is checked: enter a node below its
ancestors, the nearest first, or leave a node again. -/
inductive Step where
  | enter (handle : Handle) (ancestors : List Handle)
  | leave (handle : Handle)
deriving DecidableEq, Repr

/-- A declaration may be the root, the body of a service, or a member of a
block that is one of these. -/
def mayHoldDeclaration (tree : Tree α) (ancestors : List Handle) : Bool :=
  let tagOf (handle : Handle) := (tree.node? handle).map Node.tag
  match ancestors with
  | [] => true
  | parent :: earlier =>
      match tagOf parent with
      | some (.container .service) => true
      | some .block =>
          match earlier with
          | [] => true
          | grandparent :: _ => tagOf grandparent = some (.container .service)
      | _ => false

/-- The defect that a node itself has, its children and its identity apart. -/
def defectOf? (tree : Tree α) (limit : Nat) (node : Node α)
    (ancestors : List Handle) : Option Defect :=
  if !node.hasValidHint then some (.invalidHint node.id)
  else if limit < ancestors.length then some (.tooDeep node.id limit)
  else if node.tag.isDeclaration && !tree.mayHoldDeclaration ancestors then
    some (.misplacedDeclaration node.id node.tag)
  else
    match node.construct with
    | .selection [] => some (.emptySelection node.id)
    | _ => none

/-- The defect of one place of a node: a handle that leads nowhere, or nothing
where something is required. -/
def slotDefect? (tree : Tree α) (node : Node α) (slot : Slot) :
    Option Defect :=
  match slot.child with
  | some child =>
      if (tree.node? child).isNone then
        some (.danglingReference node.id slot.name child)
      else none
  | none =>
      if slot.required then some (.missingSlot node.id node.tag slot.name)
      else none

/-- The defect of the last of the places that have one. -/
def slotsDefect? (tree : Tree α) (node : Node α) : Option Defect :=
  node.construct.slots.reverse.findSome? (tree.slotDefect? node)

/-- Checks what is still to do.  `unseen` are the nodes not entered so far,
`path` the nodes entered and not left, and `ids` the identities met. -/
def check (tree : Tree α) (limit : Nat) (unseen path : List Handle)
    (ids : List NodeId) (steps : List Step) : Except Defect Unit :=
  match steps with
  | [] => .ok ()
  | .leave handle :: rest =>
      tree.check limit unseen (path.erase handle) ids rest
  | .enter handle ancestors :: rest =>
      match tree.node? handle with
      | none => .error .emptyTree
      | some node =>
          if handle ∈ path then .error (.cycle node.id)
          else if handle ∈ unseen then
            if node.id ∈ ids then .error (.duplicateId node.id)
            else
              match tree.defectOf? limit node ancestors with
              | some defect => .error defect
              | none =>
                  match tree.slotsDefect? node with
                  | some defect => .error defect
                  | none =>
                      let below := node.construct.children.map fun (_, child) =>
                        Step.enter child (handle :: ancestors)
                      tree.check limit (unseen.erase handle) (handle :: path)
                        (node.id :: ids) (below ++ .leave handle :: rest)
          else .error (.sharedNode node.id)
termination_by (unseen.length, steps.length)
decreasing_by
  · exact Prod.Lex.right _ (Nat.lt_succ_self _)
  · apply Prod.Lex.left
    have positive := List.length_pos_of_mem ‹handle ∈ unseen›
    rw [List.length_erase_of_mem ‹handle ∈ unseen›]
    omega

/-- Checks that a tree is well formed and no node lies deeper than `limit`. -/
def validate (tree : Tree α) (limit : Nat) : Except Defect Unit :=
  match tree.root with
  | none => .error .emptyTree
  | some root =>
      if (tree.node? root).isNone then .error .emptyTree
      else
        tree.check limit (List.range tree.size) [] [] [.enter root []]

end Tree

end Flowchart
