import Flowchart.Outline.Item
import Flowchart.Program.Stored

/-!
Identities for the nodes of an outline.  A node takes the name written for it;
any other is called after its parent and its place, so that an unchanged
outline always gives the same identities.
-/

namespace Flowchart.Outline

/-- The block around all items of an outline. -/
def rootId : NodeId := "module"

/-- Names are given out in the order of the text; the state holds those given
so far, and the error is the first one given again. -/
abbrev Naming (β : Type) : Type := StateT (List String) (Except Name) β

/-- The identity of a node: its name, or else the one given. -/
def identify (name : Option Name) (derived : NodeId) : Naming NodeId :=
  match name with
  | none => pure derived
  | some name => do
      if name.text ∈ (← get) then throw name
      modify (name.text :: ·)
      return name.text

def labelled (written : Written) (derived : NodeId) :
    Naming (Label Float32) := do
  let id ← identify written.name derived
  return ⟨id, written.text, written.hint⟩

mutual

/-- Names a program whose identity is `derived` unless one is written. -/
def named (derived : NodeId) : Item → Naming (Program (Label Float32))
  | .statement written kind => do
      return .statement (← labelled written derived) kind
  | .block written members => do
      let label ← labelled written derived
      return .block label (← namedMembers label.id 0 members)
  | .decision written consequent none => do
      let label ← labelled written derived
      let place := SlotName.consequent.text
      return .decision label (← named (label.id.child place) consequent) none
  | .decision written consequent (some alternative) => do
      let label ← labelled written derived
      let consequent ←
        named (label.id.child SlotName.consequent.text) consequent
      let alternative ←
        named (label.id.child SlotName.alternative.text) alternative
      return .decision label consequent (some alternative)
  | .selection written arms => do
      let label ← labelled written derived
      return .selection label (← namedArms label.id 0 arms)
  | .loop written kind body => do
      let label ← labelled written derived
      return .loop label kind (← named (label.id.child SlotName.body.text) body)
  | .result written => do return .result (← labelled written derived)
  | .container written kind body => do
      let label ← labelled written derived
      let body ← named (label.id.child SlotName.body.text) body
      return .container label kind body
  | .typeDefinition written => do
      return .typeDefinition (← labelled written derived)

/-- Names the members of a block from the place `index` on. -/
def namedMembers (parent : NodeId) (index : Nat) :
    List Item → Naming (List (Program (Label Float32)))
  | [] => pure []
  | member :: rest => do
      let member ← named (parent.child (toString index)) member
      return member :: (← namedMembers parent (index + 1) rest)

/-- Names the arms of a selection.  The block of an arm keeps its name but not
its size. -/
def namedArms (parent : NodeId) (index : Nat) :
    List (String × Item) → Naming (List (String × Program (Label Float32)))
  | [] => pure []
  | (pattern, body) :: rest => do
      let body ← named (parent.child (SlotName.arm index).text) body
      let body := withoutHint body
      return (pattern, body) :: (← namedArms parent (index + 1) rest)
where
  withoutHint : Program (Label Float32) → Program (Label Float32)
    | .block label members => .block { label with hint := none } members
    | body => body

end

/-- The program of all items of an outline. -/
def program (source : String) (members : List Item) :
    Except Error (Program (Label Float32)) :=
  match (named rootId (blockOf members)).run [] with
  | .ok (program, _) => .ok program
  | .error name =>
      let finish := source.utf8ByteSize - name.bytesAfter
      let start := finish - name.text.utf8ByteSize
      .error (.duplicateName name.text (.between start finish))

/-- Reads an outline into a tree, or tells what is wrong with it first. -/
def parse (source : String) : Except Error (Tree Float32) := do
  let members ← readItems source
  return Tree.ofProgram (← program source members)

end Flowchart.Outline
