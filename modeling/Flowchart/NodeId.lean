/-!
Identities of nodes.  A node keeps its identity from one revision of a program
to the next; one that is not given is made from the identity of the parent and
the place below it.
-/

namespace Flowchart

abbrev NodeId := String

namespace NodeId

/-- The identity of the node at a place below a parent. -/
def child (parent : NodeId) (place : String) : NodeId :=
  parent ++ "/" ++ place

end NodeId

end Flowchart
