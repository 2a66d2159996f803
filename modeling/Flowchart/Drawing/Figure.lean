import Flowchart.Drawing.Layer
import Flowchart.Drawing.Stroke
import Flowchart.Geometry.Rect

/-!
The outlines of constructs.
-/

namespace Flowchart

open Scalar

inductive Shape where
  /-- A plain statement. -/
  | rectangle
  /-- A header, a type definition, or the frame around a container. -/
  | rounded (radius : Float32)
  /-- A decision or a selection. -/
  | diamond
  /-- The head of a loop. -/
  | hexagon
  /-- The end of a function's run. -/
  | terminal
  /-- A block without members. -/
  | placeholder
deriving BEq, Repr, Inhabited

namespace Shape

def name : Shape → String
  | .rectangle => "rectangle"
  | .rounded _ => "rounded"
  | .diamond => "diamond"
  | .hexagon => "hexagon"
  | .terminal => "terminal"
  | .placeholder => "placeholder"

/-- The place of a rectangle as attributes. -/
def boxAttributes (bounds : Rect Float32) : List (String × String) :=
  [("x", Number.text bounds.minX), ("y", Number.text bounds.minY),
    ("width", Number.text bounds.width), ("height", Number.text bounds.height)]

/-- A rectangle, with its corners rounded if there is a radius. -/
def box (bounds : Rect Float32) (radius : Option Float32) : Markup :=
  let corners : List (String × String) :=
    match radius with
    | some radius => [("rx", Number.text radius), ("ry", Number.text radius)]
    | none => []
  .element "rect" (boxAttributes bounds ++ corners) []

def polygon (corners : List (Point Float32)) : Markup :=
  let written := corners.map fun corner =>
    Number.text corner.x ++ "," ++ Number.text corner.y
  .element "polygon" [("points", " ".intercalate written)] []

/-- The corners of a diamond, clockwise from the top. -/
def diamondCorners (bounds : Rect Float32) : List (Point Float32) :=
  let middle := bounds.center
  let right := bounds.minX + bounds.width
  let bottom := bounds.minY + bounds.height
  [⟨middle.x, bounds.minY⟩, ⟨right, middle.y⟩, ⟨middle.x, bottom⟩,
    ⟨bounds.minX, middle.y⟩]

/-- The corners of a hexagon, clockwise from the top left.  Its ends are at
most as steep as a right angle, and leave half of the width for the top. -/
def hexagonCorners (bounds : Rect Float32) : List (Point Float32) :=
  let middle := bounds.center
  let width := bounds.width
  let height := bounds.height
  let inset := smaller (half height) (width / 4)
  let left := bounds.minX
  let right := bounds.minX + width
  let top := bounds.minY
  let bottom := bounds.minY + height
  [⟨left + inset, top⟩, ⟨right - inset, top⟩, ⟨right, middle.y⟩,
    ⟨right - inset, bottom⟩, ⟨left + inset, bottom⟩, ⟨left, middle.y⟩]

/-- The outline of a shape that fills a rectangle. -/
def outline (bounds : Rect Float32) : Shape → Markup
  | .rectangle => box bounds none
  | .rounded radius => box bounds (some radius)
  | .terminal => box bounds (some (half bounds.height))
  | .placeholder => box bounds (some 4)
  | .diamond => polygon (diamondCorners bounds)
  | .hexagon => polygon (hexagonCorners bounds)

end Shape

structure Figure where
  shape : Shape
  bounds : Rect Float32
  fill : Option Color
  stroke : Stroke
  layer : Layer
deriving BEq, Repr, Inhabited

namespace Figure

def draw (figure : Figure) : Layered :=
  let fill :=
    match figure.fill with
    | some color => color.text
    | none => "none"
  let attributes :=
    [("fill", fill), ("data-shape", figure.shape.name)] ++
      figure.stroke.attributes
  [(figure.layer,
    .element "g" attributes [figure.shape.outline figure.bounds])]

end Figure

end Flowchart
