import Flowchart.Geometry.Point

/-!
Rectangles with sides along the axes.  A rectangle holds its border; two that
only share an edge do not overlap.
-/

namespace Flowchart

open Scalar

structure Rect (α : Type) where
  minX : α
  minY : α
  maxX : α
  maxY : α
deriving DecidableEq, BEq, Repr, Inhabited

namespace Rect

variable {α : Type} [Scalar α]

def ofTopLeft (corner : Point α) (size : Size α) : Rect α :=
  ⟨corner.x, corner.y, corner.x + size.width, corner.y + size.height⟩

def topLeft (rect : Rect α) : Point α := ⟨rect.minX, rect.minY⟩

def width (rect : Rect α) : α := rect.maxX - rect.minX

def height (rect : Rect α) : α := rect.maxY - rect.minY

def size (rect : Rect α) : Size α := ⟨rect.width, rect.height⟩

def center (rect : Rect α) : Point α :=
  ⟨half (rect.minX + rect.maxX), half (rect.minY + rect.maxY)⟩

/-- Whether a point lies inside or on the border. -/
def contains (rect : Rect α) (point : Point α) : Bool :=
  decide (rect.minX ≤ point.x) && decide (point.x ≤ rect.maxX) &&
    decide (rect.minY ≤ point.y) && decide (point.y ≤ rect.maxY)

/-- Whether the interiors meet by more than the tolerance. -/
def overlaps (left right : Rect α) : Bool :=
  decide (left.minX < right.maxX - tolerance) &&
    decide (right.minX < left.maxX - tolerance) &&
    decide (left.minY < right.maxY - tolerance) &&
    decide (right.minY < left.maxY - tolerance)

def translate (rect : Rect α) (offset : Point α) : Rect α :=
  ⟨rect.minX + offset.x, rect.minY + offset.y,
    rect.maxX + offset.x, rect.maxY + offset.y⟩

end Rect

end Flowchart
