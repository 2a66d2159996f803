import Flowchart.View.Backend

/-!
An interactive view of a diagram.  Diagrams come as numbered snapshots, and a
picture is drawn only if the snapshot or the viewport is another one than for
the last picture.
-/

namespace Flowchart

open Scalar

/-- A published diagram.  The number tells it from other snapshots, even of an
equal diagram. -/
structure Snapshot (α : Type) where
  number : Nat
  diagram : RoutedDiagram α
deriving Repr

/-- Why there is no view. -/
inductive CanvasError (α : Type) where
  | settings (error : SettingsError α)
  | backend (error : BackendError)
deriving Repr

structure Canvas (α : Type) where
  backend : Backend α
  snapshot : Snapshot α
  viewport : Viewport α
  /-- The number of the snapshot and the viewport of the last picture. -/
  lastDrawn : Option (Nat × Viewport α)

namespace RoutedDiagram

variable {α : Type} [Scalar α]

/-- The node that comes last among the deepest ones around a point. -/
def innermostAt? (diagram : RoutedDiagram α) (point : Point α) :
    Option (DiagramNode α) :=
  diagram.nodes.foldl
    (fun best node =>
      if node.bounds.contains point then
        match best with
        | some other => if node.depth < other.depth then best else some node
        | none => some node
      else best)
    none

end RoutedDiagram

namespace Canvas

variable {α : Type} [Scalar α] (canvas : Canvas α)

/-- Opens a view on a target. -/
def create (snapshot : Snapshot α) (backend : Backend α)
    (settings : ZoomSettings α) (screen : Size α) :
    Except (CanvasError α) (Canvas α) := do
  settings.validate.mapError CanvasError.settings
  let backend ← backend.acquire.mapError CanvasError.backend
  return {
    backend
    snapshot
    viewport := .initial settings screen
    lastDrawn := none }

/-- Shows another snapshot from the next picture on. -/
def setSnapshot (snapshot : Snapshot α) : Canvas α := { canvas with snapshot }

/-- Changes what part of the plane is shown. -/
def adjust (change : Viewport α → Viewport α) : Canvas α :=
  { canvas with viewport := change canvas.viewport }

/-- The identity of the innermost node under a point of the screen. -/
def hit? (point : Point α) : Option NodeId :=
  let place := canvas.viewport.toDiagram point
  (canvas.snapshot.diagram.innermostAt? place).map DiagramNode.id

/-- Whether the last picture shows what the next one would. -/
def isCurrent : Bool :=
  canvas.lastDrawn.any fun (number, viewport) =>
    number = canvas.snapshot.number && viewport == canvas.viewport

/-- Draws a picture unless the last one still holds, and tells whether it
did. -/
def redraw : Except BackendError (Bool × Canvas α) :=
  if canvas.isCurrent then .ok (false, canvas)
  else do
    let backend ←
      canvas.backend.present canvas.snapshot.diagram canvas.viewport
    return (true,
      { canvas with
        backend
        lastDrawn := some (canvas.snapshot.number, canvas.viewport) })

/-- Gives the target back. -/
def close : Backend α := canvas.backend.release

end Canvas

end Flowchart
