import Flowchart.Keyed
import Flowchart.Tree.Walk

/-!
What changes from one revision of a tree to the next, told by the identities of
the nodes.
-/

namespace Flowchart

inductive Patch where
  /-- A node that is only in the new tree. -/
  | insert (id : NodeId) (parent : Option NodeId)
  /-- A node that is only in the old tree. -/
  | remove (id : NodeId)
  /-- The same construct with other content. -/
  | update (id : NodeId)
  /-- A node with another parent, or in another place among its siblings. -/
  | move (id : NodeId) (source target : Option NodeId)
  /-- Another construct with the same identity. -/
  | restructure (id : NodeId)
deriving DecidableEq, Repr

namespace Patch

def id : Patch → NodeId
  | .insert id _ | .remove id | .update id | .move id _ _ | .restructure id => id

def text : Patch → String
  | .insert id _ => "insert " ++ id
  | .remove id => "remove " ++ id
  | .update id => "update " ++ id
  | .move id _ _ => "move " ++ id
  | .restructure id => "restructure " ++ id

end Patch

/-- What two revisions of one node are compared by. -/
structure RevisionEntry (α : Type) where
  id : NodeId
  tag : Tag
  text : String
  hint : Option (Size α)
  kind : Option StatementKind
  patterns : List String
  parent : Option NodeId
  children : List (SlotName × NodeId)
deriving Repr

namespace RevisionEntry

variable {α : Type} [Scalar α]

/-- Whether two nodes of one kind have the same content, their children
apart. -/
def sameContent (left right : RevisionEntry α) : Bool :=
  left.text = right.text && left.hint == right.hint &&
    decide (left.kind = right.kind) && decide (left.patterns = right.patterns)

/-- The entry of a node, given who refers to whom so far; the latest link of a
child counts. -/
def ofNode (tree : Tree α) (links : List (NodeId × NodeId)) (node : Node α) :
    RevisionEntry α × List (NodeId × NodeId) :=
  let children := node.construct.children.filterMap fun (slot, child) =>
    (tree.node? child).map fun child => (slot, child.id)
  let links :=
    children.foldl (fun links (_, child) => (child, node.id) :: links) links
  ({ id := node.id
     tag := node.tag
     text := node.text
     hint := node.hint
     kind := node.construct.statementKind?
     patterns := node.construct.patterns
     parent := links.lookup node.id
     children },
    links)

/-- The entries of nodes in the order of the walk. -/
def ofNodes (tree : Tree α) (links : List (NodeId × NodeId)) :
    List (Node α) → List (RevisionEntry α)
  | [] => []
  | node :: rest =>
      let (entry, links) := ofNode tree links node
      entry :: ofNodes tree links rest

/-- One entry for each identity that can be reached. -/
def ofTree (tree : Tree α) : List (RevisionEntry α) :=
  let nodes := tree.walk.filterMap fun (handle, _) => tree.node? handle
  Keyed.ofList RevisionEntry.id (ofNodes tree [] nodes)

/-- Places of members and arms shift with every insertion; only the two
branches of a decision are places of their own. -/
def switchedBranch (old new : SlotName) : Bool :=
  match old, new with
  | .consequent, .alternative | .alternative, .consequent => true
  | _, _ => false

/-- The children of both lists whose rank among these, or whose branch, is
another one now. -/
def reordered (parent : NodeId) (old new : List (SlotName × NodeId)) :
    List Patch :=
  let keptOld := old.filter fun (_, id) => new.any fun (_, other) => other = id
  let keptNew := new.filter fun (_, id) => old.any fun (_, other) => other = id
  (keptNew.zip keptOld).filterMap fun ((newSlot, newId), (oldSlot, oldId)) =>
    if newId ≠ oldId || switchedBranch oldSlot newSlot then
      some (.move newId (some parent) (some parent))
    else none

/-- The patches of a node that is in both trees. -/
def changes (old new : RevisionEntry α) : List Patch :=
  let content : List Patch :=
    if old.tag ≠ new.tag then [.restructure new.id]
    else if !old.sameContent new then [.update new.id]
    else []
  let place : List Patch :=
    if old.parent ≠ new.parent then [.move new.id old.parent new.parent]
    else []
  content ++ place ++ reordered new.id old.children new.children

end RevisionEntry

namespace Tree

variable {α : Type} [Scalar α]

/-- The patches from an old tree to a new one: first those of nodes in the new
tree, then what was removed, each in the order of its tree. -/
def diff (old new : Tree α) : List Patch :=
  let oldEntries := RevisionEntry.ofTree old
  let newEntries := RevisionEntry.ofTree new
  let kept := newEntries.flatMap fun entry =>
    match Keyed.find? RevisionEntry.id oldEntries entry.id with
    | none => [Patch.insert entry.id entry.parent]
    | some previous => previous.changes entry
  let removed := oldEntries.filterMap fun entry =>
    match Keyed.find? RevisionEntry.id newEntries entry.id with
    | none => some (Patch.remove entry.id)
    | some _ => none
  kept ++ removed

end Tree

end Flowchart
