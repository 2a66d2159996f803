import Flowchart.Layout.Arrangement

/-!
Measuring programs, with the arrangements of earlier passes at hand.  An
arrangement found under the identity of a node is taken as it is; whoever
changes a program has to drop what no longer holds.
-/

namespace Flowchart

/-- Arrangements by the identity of their nodes, at most one for each, and how
often one was found or made. -/
structure ArrangementCache (α : Type) where
  entries : List (NodeId × Arrangement α)
  hits : Nat
  misses : Nat
deriving Repr, Inhabited

namespace ArrangementCache

variable {α : Type}

def empty : ArrangementCache α := ⟨[], 0, 0⟩

def size (cache : ArrangementCache α) : Nat := cache.entries.length

def get? (cache : ArrangementCache α) (id : NodeId) : Option (Arrangement α) :=
  cache.entries.lookup id

def contains (cache : ArrangementCache α) (id : NodeId) : Bool :=
  (cache.get? id).isSome

/-- Drops the arrangement of a node. -/
def erase (cache : ArrangementCache α) (id : NodeId) : ArrangementCache α :=
  { cache with entries := cache.entries.filter fun entry => entry.1 ≠ id }

def clear (cache : ArrangementCache α) : ArrangementCache α :=
  { cache with entries := [] }

def resetCounters (cache : ArrangementCache α) : ArrangementCache α :=
  { cache with hits := 0, misses := 0 }

def countHit (cache : ArrangementCache α) : ArrangementCache α :=
  { cache with hits := cache.hits + 1 }

/-- Keeps an arrangement that was just made. -/
def insert (cache : ArrangementCache α) (arrangement : Arrangement α) :
    ArrangementCache α :=
  let id := arrangement.label.id
  { entries := (id, arrangement) :: (cache.erase id).entries
    hits := cache.hits
    misses := cache.misses + 1 }

/-- Keeps the first of the entries with one identity. -/
def firstOfEach :
    List (NodeId × Arrangement α) → List (NodeId × Arrangement α)
  | [] => []
  | entry :: rest =>
      entry :: (firstOfEach rest).filter fun other => other.1 ≠ entry.1

/-- Keeps nothing but the arrangements of a node and of all below it.  Where
an identity occurs twice, the node that comes first with children before their
parents counts. -/
def retain (cache : ArrangementCache α) (root : Arrangement α) :
    ArrangementCache α :=
  let entries := root.postorder.map fun node => (node.label.id, node)
  { cache with entries := firstOfEach entries }

end ArrangementCache

/-- A pass of measuring keeps what it made even if it fails in the end. -/
abbrev Measuring (α β : Type) : Type :=
  ExceptT Fault (StateM (ArrangementCache α)) β

namespace Measuring

variable {α : Type} [Scalar α]

/-- Takes the arrangement of a node from the cache, or makes one and keeps
it. -/
def orMake (id : NodeId) (make : Measuring α (Arrangement α)) :
    Measuring α (Arrangement α) := do
  match (← get).get? id with
  | some arrangement =>
      modify ArrangementCache.countHit
      return arrangement
  | none =>
      let arrangement ← make
      modify fun cache => cache.insert arrangement
      return arrangement

end Measuring

namespace Program

variable {α : Type} [Scalar α] (settings : LayoutSettings α)

mutual

/-- Measures a program from its leaves up. -/
def measure : Program (Label α) → Measuring α (Arrangement α)
  | .statement label kind =>
      Measuring.orMake label.id do Arrangement.ofStatement settings label kind
  | .block label members =>
      Measuring.orMake label.id do
        Arrangement.ofBlock settings label (← measureMembers members)
  | .decision label consequent none =>
      Measuring.orMake label.id do
        Arrangement.ofDecision settings label (← measure consequent) none
  | .decision label consequent (some alternative) =>
      Measuring.orMake label.id do
        let consequent ← measure consequent
        let alternative ← measure alternative
        Arrangement.ofDecision settings label consequent (some alternative)
  | .selection label arms =>
      Measuring.orMake label.id do
        Arrangement.ofSelection settings label (← measureArms arms)
  | .loop label kind body =>
      Measuring.orMake label.id do
        Arrangement.ofLoop settings label kind (← measure body)
  | .result label =>
      Measuring.orMake label.id do Arrangement.ofResult settings label
  | .container label kind body =>
      Measuring.orMake label.id do
        Arrangement.ofContainer settings label kind (← measure body)
  | .typeDefinition label =>
      Measuring.orMake label.id do Arrangement.ofTypeDefinition settings label

def measureMembers :
    List (Program (Label α)) → Measuring α (List (Arrangement α))
  | [] => pure []
  | member :: rest => do
      let member ← measure member
      return member :: (← measureMembers rest)

def measureArms :
    List (String × Program (Label α)) →
      Measuring α (List (String × Arrangement α))
  | [] => pure []
  | (pattern, body) :: rest => do
      let body ← measure body
      return (pattern, body) :: (← measureArms rest)

end

end Program

end Flowchart
