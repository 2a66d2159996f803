import Flowchart.Program.Basic
import Flowchart.Tree.Arena

/-!
Programs stored as trees, and read back.  A program is stored with children
before their parents, so that its root comes last.
-/

namespace Flowchart

variable {α : Type}

namespace Program

mutual

/-- Adds the nodes of a program to those stored; the last one is its root. -/
def store (nodes : Array (Node α)) : Program (Label α) → Array (Node α)
  | .statement label kind =>
      nodes.push { toLabel := label, construct := .statement kind }
  | .block label members =>
      let (nodes, handles) := storeMembers nodes members
      nodes.push { toLabel := label, construct := .block handles }
  | .decision label consequent none =>
      let nodes := store nodes consequent
      let construct := .decision (some (nodes.size - 1)) none
      nodes.push { toLabel := label, construct }
  | .decision label consequent (some alternative) =>
      let withConsequent := store nodes consequent
      let nodes := store withConsequent alternative
      let construct :=
        .decision (some (withConsequent.size - 1)) (some (nodes.size - 1))
      nodes.push { toLabel := label, construct }
  | .selection label arms =>
      let (nodes, arms) := storeArms nodes arms
      nodes.push { toLabel := label, construct := .selection arms }
  | .loop label kind body =>
      let nodes := store nodes body
      nodes.push
        { toLabel := label, construct := .loop kind (some (nodes.size - 1)) }
  | .result label => nodes.push { toLabel := label, construct := .result }
  | .container label kind body =>
      let nodes := store nodes body
      let construct := .container kind (some (nodes.size - 1))
      nodes.push { toLabel := label, construct }
  | .typeDefinition label =>
      nodes.push { toLabel := label, construct := .typeDefinition }

/-- Adds programs one after the other and lists the handles of their roots. -/
def storeMembers (nodes : Array (Node α)) :
    List (Program (Label α)) → Array (Node α) × List Handle
  | [] => (nodes, [])
  | member :: rest =>
      let nodes := store nodes member
      let (all, handles) := storeMembers nodes rest
      (all, (nodes.size - 1) :: handles)

def storeArms (nodes : Array (Node α)) :
    List (String × Program (Label α)) → Array (Node α) × List Arm
  | [] => (nodes, [])
  | (pattern, body) :: rest =>
      let nodes := store nodes body
      let (all, arms) := storeArms nodes rest
      (all, ⟨pattern, some (nodes.size - 1)⟩ :: arms)

end

end Program

namespace Tree

/-- The tree that stores one program. -/
def ofProgram (program : Program (Label α)) : Tree α :=
  let nodes := program.store #[]
  ⟨nodes, some (nodes.size - 1)⟩

/-- The program below a handle, no deeper than `fuel` levels.  The error is
the handle of a node that is missing or lacks what it needs. -/
def unfold (tree : Tree α) : (fuel : Nat) → Handle →
    Except Handle (Program (Label α))
  | 0, handle => .error handle
  | fuel + 1, handle =>
      match tree.node? handle with
      | none => .error handle
      | some node =>
          let label := node.toLabel
          let below (child : Option Handle) :=
            match child with
            | some child => tree.unfold fuel child
            | none => .error handle
          match node.construct with
          | .statement kind => .ok (.statement label kind)
          | .block members => do
              return .block label (← members.mapM (tree.unfold fuel))
          | .decision consequent none => do
              return .decision label (← below consequent) none
          | .decision consequent (some alternative) => do
              let consequent ← below consequent
              let alternative ← tree.unfold fuel alternative
              return .decision label consequent (some alternative)
          | .selection arms => do
              let arms ← arms.mapM fun arm => do
                return (arm.pattern, ← below arm.body)
              return .selection label arms
          | .loop kind body => do return .loop label kind (← below body)
          | .result => .ok (.result label)
          | .container kind body => do
              return .container label kind (← below body)
          | .typeDefinition => .ok (.typeDefinition label)

end Tree

end Flowchart
