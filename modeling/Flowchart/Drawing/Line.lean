import Flowchart.Drawing.Layer
import Flowchart.Drawing.Stroke
import Flowchart.Geometry.Polyline
import Flowchart.Keyed

/-!
The lines of connectors and their arrow heads.  Lines of one colour share an
arrow head, which is defined once.
-/

namespace Flowchart

/-- The name under which the arrow head of a colour is defined. -/
def arrowName (color : Color) : String := "arrow-" ++ color.identifier

def arrowHead (color : Color) : Markup :=
  let attributes :=
    [("id", arrowName color), ("viewBox", "0 0 10 10"), ("refX", "9"),
      ("refY", "5"), ("markerWidth", "7"), ("markerHeight", "7"),
      ("orient", "auto")]
  let tip : Markup :=
    .element "path"
      [("d", "M 0 0 L 10 5 L 0 10 z"), ("fill", color.text),
        ("fill-opacity", Number.text color.alpha)] []
  .element "marker" attributes [tip]

/-- The arrow heads that lines of the given colours need, one for each name
and in the order of the names. -/
def arrowHeads (colors : List Color) : List Markup :=
  let distinct := Keyed.ofList Color.identifier colors
  let ordered := distinct.mergeSort fun left right =>
    decide (left.identifier ≤ right.identifier)
  ordered.map arrowHead

structure Line where
  path : Polyline Float32
  stroke : Stroke
deriving Repr, Inhabited

namespace Line

/-- A move to the first point, then straight lines. -/
def pathText (points : List (Point Float32)) : String :=
  let steps := points.mapIdx fun index point =>
    (if index = 0 then "M " else "L ") ++
      Number.text point.x ++ " " ++ Number.text point.y
  " ".intercalate steps

/-- A line of less than two points is not drawn. -/
def draw (line : Line) : Layered :=
  match line.path.points with
  | [] | [_] => []
  | points =>
      let attributes :=
        [("d", pathText points), ("fill", "none"),
          ("marker-end", "url(#" ++ arrowName line.stroke.color ++ ")")] ++
          line.stroke.attributes
      [(.connector, .element "path" attributes [])]

end Line

end Flowchart
