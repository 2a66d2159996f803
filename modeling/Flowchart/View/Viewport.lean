import Flowchart.Geometry.Rect
import Flowchart.Settings.Layout

/-!
The part of the plane that a screen shows.  A point of the plane is shown at
`point * zoom + pan`.
-/

namespace Flowchart

open Scalar

structure Viewport (α : Type) where
  pan : Point α
  zoom : α
  minZoom : α
  maxZoom : α
  screen : Size α
deriving DecidableEq, BEq, Repr, Inhabited

namespace Viewport

variable {α : Type} [Scalar α] (viewport : Viewport α)

/-- The plane from its origin on, at the initial zoom. -/
def initial (settings : ZoomSettings α) (screen : Size α) : Viewport α where
  pan := .origin
  zoom := settings.initialZoom
  minZoom := settings.minZoom
  maxZoom := settings.maxZoom
  screen

def setPan (pan : Point α) : Viewport α := { viewport with pan }

def panBy (offset : Point α) : Viewport α :=
  { viewport with pan := viewport.pan + offset }

/-- Zooms as far as the limits allow.  What is not a finite number is passed
over. -/
def setZoom (zoom : α) : Viewport α :=
  if isFinite zoom then
    { viewport with zoom := clamp viewport.minZoom viewport.maxZoom zoom }
  else viewport

def resize (screen : Size α) : Viewport α := { viewport with screen }

/-- The point of the plane that is shown at a point of the screen. -/
def toDiagram (point : Point α) : Point α :=
  (point - viewport.pan).scale (ofNat 1 / viewport.zoom)

/-- Where a point of the plane is shown. -/
def toScreen (point : Point α) : Point α :=
  point.scale viewport.zoom + viewport.pan

/-- Zooms by a factor; the point of the plane under a point of the screen
stays there. -/
def zoomAbout (point : Point α) (factor : α) : Viewport α :=
  let fixed := viewport.toDiagram point
  let zoomed := viewport.setZoom (viewport.zoom * factor)
  { zoomed with pan := point - fixed.scale zoomed.zoom }

/-- The part of the plane that is shown. -/
def visibleRegion : Rect α :=
  .ofTopLeft (viewport.toDiagram .origin)
    ⟨viewport.screen.width / viewport.zoom,
      viewport.screen.height / viewport.zoom⟩

end Viewport

end Flowchart
