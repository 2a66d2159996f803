import Flowchart.Drawing.Document
import Flowchart.Failure
import Flowchart.Outline.Naming

/-!
All stages in a row: from the text of an outline to a tree, a routed diagram
and a drawing.
-/

namespace Flowchart

/-- Reads an outline. -/
def readOutline (source : String) : Except Failure (Tree Float32) :=
  (Outline.parse source).mapError .outline

namespace Settings

/-- Lays out a tree and routes its connectors. -/
def diagram (settings : Settings) (tree : Tree Float32) :
    Except Failure (RoutedDiagram Float32) := do
  settings.layout.validate.mapError .settings
  let diagram ← (tree.layout settings.layout).mapError .layout
  (diagram.route settings.layout).mapError fun fault =>
    .layout (.inconsistent fault)

def drawingStyle (settings : Settings) : Except Failure Style :=
  (Style.ofSettings settings.style).mapError fun error =>
    .drawing (.style error)

/-- Draws a diagram as a document of its own. -/
def drawing (settings : Settings) (diagram : RoutedDiagram Float32) :
    Except Failure String := do
  return ((← settings.drawingStyle).document diagram).write

/-- A target for pictures in the style of the settings. -/
def backend (settings : Settings) : Except Failure (Backend Float32) := do
  let style ← settings.drawingStyle
  return .released fun diagram viewport =>
    (style.region diagram viewport.visibleRegion viewport.screen).write

end Settings

end Flowchart
