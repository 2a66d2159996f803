import Flowchart.Geometry.Rect

/-!
Straight lines between two points, and when one passes through a rectangle.
-/

namespace Flowchart

open Scalar

structure Segment (α : Type) where
  start : Point α
  finish : Point α
deriving DecidableEq, Repr, Inhabited

namespace Segment

variable {α : Type} [Scalar α]

def isHorizontal (segment : Segment α) : Bool :=
  near segment.start.y segment.finish.y

def isVertical (segment : Segment α) : Bool :=
  near segment.start.x segment.finish.x

def isOrthogonal (segment : Segment α) : Bool :=
  segment.isHorizontal || segment.isVertical

/-- Whether a coordinate lies between two others by more than the tolerance. -/
def strictlyBetween (low high value : α) : Bool :=
  decide (low + tolerance < value) && decide (value < high - tolerance)

/-- Whether the coordinates between `start` and `finish`, in either order, come
between `low` and `high` by more than the tolerance. -/
def spans (low high start finish : α) : Bool :=
  let (first, last) := if start ≤ finish then (start, finish) else (finish, start)
  decide (first < high - tolerance) && decide (low + tolerance < last)

/-- Whether the segment passes through the interior of a rectangle.  Running
along an edge is no crossing; a slanted segment is tested by the rectangle
around it. -/
def crosses (segment : Segment α) (rect : Rect α) : Bool :=
  let spansX := spans rect.minX rect.maxX segment.start.x segment.finish.x
  let spansY := spans rect.minY rect.maxY segment.start.y segment.finish.y
  if segment.isHorizontal then
    strictlyBetween rect.minY rect.maxY segment.start.y && spansX
  else if segment.isVertical then
    strictlyBetween rect.minX rect.maxX segment.start.x && spansY
  else spansX && spansY

end Segment

end Flowchart
