import Flowchart.NodeId

/-!
Lists of items that are told apart by an identity, in the order in which the
identities were first added.
-/

namespace Flowchart.Keyed

variable {β : Type}

/-- The first item with an identity. -/
def find? (key : β → NodeId) (items : List β) (id : NodeId) : Option β :=
  items.find? fun item => key item = id

/-- Adds an item at the end, or in the place of the item with its identity. -/
def put (key : β → NodeId) (items : List β) (item : β) : List β :=
  if items.any fun other => key other = key item then
    items.map fun other => if key other = key item then item else other
  else items ++ [item]

/-- Adds items one after the other. -/
def ofList (key : β → NodeId) (items : List β) : List β :=
  items.foldl (put key) []

end Flowchart.Keyed
