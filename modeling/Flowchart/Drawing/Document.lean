import Flowchart.Drawing.Caption
import Flowchart.Drawing.Figure
import Flowchart.Drawing.Line
import Flowchart.Route.Router
import Flowchart.Settings.Basic

/-!
Drawings of routed diagrams.
-/

namespace Flowchart

open Scalar

/-- The colours of a drawing.  Figures are filled with the background. -/
structure Style where
  background : Option Color
  stroke : Stroke
  text : TextStyle
deriving BEq, Repr, Inhabited

namespace Style

/-- The free space around a diagram. -/
def margin : Float32 := 20

def cornerRadius : Float32 := 8

/-- How far the text of a connector is moved from where the line starts. -/
def captionOffset : Float32 := 4

def captionSize : Float32 := 10

/-- The style of the settings, unless one of the colours cannot be read. -/
def ofSettings (settings : StyleSettings) :
    Except (SettingsError Float32) Style := do
  let background ← settings.background
  let line := (← settings.line).getD .black
  return {
    background
    stroke := .solid line Stroke.standardWidth
    text := { TextStyle.standard with color := line } }

variable (style : Style)

def strokeFor (reachable : Bool) : Stroke :=
  if reachable then style.stroke else style.stroke.unreachable

/-! ## Nodes -/

def shapeOf : Tag → Shape
  | .statement => .rectangle
  | .block => .placeholder
  | .decision | .selection => .diamond
  | .loop _ => .hexagon
  | .result => .terminal
  | .container _ | .typeDefinition => .rounded cornerRadius

/-- The dotted frame around a container. -/
def frame (node : DiagramNode Float32) (stroke : Stroke) : Layered :=
  match node.tag with
  | .container _ =>
      Figure.draw {
        shape := .rounded cornerRadius
        bounds := node.bounds
        fill := none
        stroke := { stroke with dash := .dotted }
        layer := .background }
  | _ => []

/-- The figure of a node with its text, within the frame of a container. -/
def node (node : DiagramNode Float32) : Layered :=
  let stroke := style.strokeFor node.reachable
  let text :=
    if node.reachable then style.text
    else { style.text with color := stroke.color }
  let figure : Layered :=
    match node.figure with
    | none => []
    | some bounds =>
        let figure : Figure := {
          shape := shapeOf node.tag
          bounds
          fill := style.background
          stroke
          layer := .chrome }
        figure.draw ++ (Caption.centered node.text bounds text).draw
  frame node stroke ++ figure

/-! ## Connectors -/

/-- The text of a connector stands beside a first run down, or above a first
run across. -/
def captionPlace? (path : Polyline Float32) : Option (Point Float32) :=
  path.segments.head?.map fun first =>
    let start := first.start
    if first.isHorizontal then
      ⟨start.x + captionOffset, start.y - captionOffset⟩
    else ⟨start.x + captionOffset, start.y + 3 * captionOffset⟩

def connectorColor (connector : Connector Float32) : Color :=
  (style.strokeFor connector.reachable).color

def connector (connector : Connector Float32) : Layered :=
  let stroke := style.strokeFor connector.reachable
  let line : Line := ⟨connector.path, stroke⟩
  let caption : Layered :=
    match connector.label, captionPlace? connector.path with
    | some label, some place =>
        let text :=
          { style.text with color := stroke.color, size := captionSize }
        (Caption.startingAt label place text).draw
    | _, _ => []
  line.draw ++ caption

/-! ## Documents -/

/-- All elements of a diagram. -/
def elements (diagram : RoutedDiagram Float32) : Layered :=
  diagram.nodes.flatMap style.node ++ diagram.connectors.flatMap style.connector

/-- The background of the part of the plane that is shown. -/
def backdrop (view : Rect Float32) : List Markup :=
  style.background.toList.map fun color =>
    .element "rect" (Shape.boxAttributes view ++ [("fill", color.text)]) []

/-- A document of some size that shows one part of the plane. -/
def region (diagram : RoutedDiagram Float32) (view : Rect Float32)
    (size : Size Float32) : Markup :=
  let viewBox := [view.minX, view.minY, view.width, view.height]
  let attributes :=
    [("xmlns", "http://www.w3.org/2000/svg"),
      ("viewBox", " ".intercalate (viewBox.map Number.text)),
      ("width", Number.text size.width), ("height", Number.text size.height)]
  let arrows := arrowHeads (diagram.connectors.map style.connectorColor)
  .element "svg" attributes <|
    style.backdrop view ++ .element "defs" [] arrows ::
      (style.elements diagram).groups

/-- A document that shows a diagram with a margin around it. -/
def document (diagram : RoutedDiagram Float32) : Markup :=
  let bounds := diagram.bounds
  let size : Size Float32 :=
    ⟨bounds.width + 2 * margin, bounds.height + 2 * margin⟩
  let corner : Point Float32 := ⟨bounds.minX - margin, bounds.minY - margin⟩
  style.region diagram (.ofTopLeft corner size) size

end Style

end Flowchart
