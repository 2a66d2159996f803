import Flowchart.Geometry.Segment

/-!
Chains of points joined by straight segments.  A chain built from waypoints
keeps its bends only: repeated points are dropped and segments that continue
one another are joined.
-/

namespace Flowchart

open Scalar

structure Polyline (α : Type) where
  points : List (Point α)
deriving DecidableEq, Repr, Inhabited

namespace Polyline

variable {α : Type} [Scalar α]

/-- Whether three points lie on one line along an axis, within the tolerance
from each to the next. -/
def collinear (first middle last : Point α) : Bool :=
  (near first.x middle.x && near middle.x last.x) ||
    (near first.y middle.y && near middle.y last.y)

/-- Adds a waypoint to a chain given from its last point backwards.  A corner
that the waypoint makes superfluous is taken back, and the waypoint is tried
against the corners before it. -/
def extend : List (Point α) → Point α → List (Point α)
  | [], point => [point]
  | [last], point => if last.near point then [last] else [point, last]
  | last :: previous :: earlier, point =>
      if last.near point then last :: previous :: earlier
      else if collinear previous last point then
        extend (previous :: earlier) point
      else point :: last :: previous :: earlier

/-- The chain through the given waypoints. -/
def ofPoints (points : List (Point α)) : Polyline α :=
  ⟨(points.foldl extend []).reverse⟩

def start? (line : Polyline α) : Option (Point α) := line.points.head?

def finish? (line : Polyline α) : Option (Point α) := line.points.getLast?

/-- The segments from each point to the next. -/
def segments (line : Polyline α) : List (Segment α) :=
  line.points.zipWith Segment.mk (line.points.drop 1)

def isOrthogonal (line : Polyline α) : Bool :=
  line.segments.all Segment.isOrthogonal

def isFinite (line : Polyline α) : Bool :=
  line.points.all Point.isFinite

end Polyline

end Flowchart
