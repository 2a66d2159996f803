import Flowchart.Diagram.Connector

/-!
What a layout or a routing can find wrong with itself.
-/

namespace Flowchart

inductive Fault where
  | missingNode (handle : Nat)
  | unknownNode (id : NodeId)
  | unknownAnchor (id : NodeId) (anchor : Anchor)
  | invalidGeometry (id : NodeId)
  | siblingOverlap (first second : NodeId)
  | notOrthogonal (source target : NodeId) (kind : ConnectorKind)
  | detached (source target : NodeId) (kind : ConnectorKind)
  | crossesNode (source target : NodeId) (kind : ConnectorKind)
      (crossed : NodeId)
deriving DecidableEq, Repr

namespace Fault

def connectorText (source target : NodeId) (kind : ConnectorKind) : String :=
  kind.text ++ " connector from `" ++ source ++ "` to `" ++ target ++ "`"

def message : Fault → String
  | .missingNode handle =>
      "syntax tree refers to node #" ++ toString handle ++
        ", which does not exist"
  | .unknownNode id => "no layout node with id `" ++ id ++ "`"
  | .unknownAnchor id anchor =>
      "node `" ++ id ++ "` has no " ++ anchor.text ++ " anchor"
  | .invalidGeometry id => "node `" ++ id ++ "` has invalid geometry"
  | .siblingOverlap first second =>
      "sibling nodes `" ++ first ++ "` and `" ++ second ++ "` overlap"
  | .notOrthogonal source target kind =>
      connectorText source target kind ++ " is not orthogonal"
  | .detached source target kind =>
      connectorText source target kind ++ " does not end on its anchors"
  | .crossesNode source target kind crossed =>
      connectorText source target kind ++ " crosses node `" ++ crossed ++ "`"

end Fault

end Flowchart
