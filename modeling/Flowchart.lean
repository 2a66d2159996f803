import Flowchart.Main
import Flowchart.Proofs.Drawing.Documents
import Flowchart.Proofs.Drawing.Layers
import Flowchart.Proofs.Flow.Begin
import Flowchart.Proofs.Flow.Blank
import Flowchart.Proofs.Flow.Conduct
import Flowchart.Proofs.Flow.Continuation
import Flowchart.Proofs.Flow.Degrees
import Flowchart.Proofs.Flow.Endpoints
import Flowchart.Proofs.Flow.Frames
import Flowchart.Proofs.Flow.Lateral
import Flowchart.Proofs.Flow.Liveness
import Flowchart.Proofs.Flow.Marking
import Flowchart.Proofs.Flow.Marks
import Flowchart.Proofs.Flow.Origins
import Flowchart.Proofs.Flow.Reachable
import Flowchart.Proofs.Flow.Search
import Flowchart.Proofs.Flow.Structured
import Flowchart.Proofs.Geometry.Polyline
import Flowchart.Proofs.Geometry.Rect
import Flowchart.Proofs.Keyed
import Flowchart.Proofs.Layout.Blank
import Flowchart.Proofs.Layout.Distances
import Flowchart.Proofs.Layout.Drawn
import Flowchart.Proofs.Layout.Enclosed
import Flowchart.Proofs.Layout.Exact
import Flowchart.Proofs.Layout.Extent
import Flowchart.Proofs.Layout.Fitting
import Flowchart.Proofs.Layout.Listed
import Flowchart.Proofs.Layout.Measure
import Flowchart.Proofs.Layout.Moved
import Flowchart.Proofs.Layout.Overflow
import Flowchart.Proofs.Layout.Placed
import Flowchart.Proofs.Layout.Resolved
import Flowchart.Proofs.Layout.Spacing
import Flowchart.Proofs.Layout.Tiles
import Flowchart.Proofs.Layout.Visited
import Flowchart.Proofs.Outline.Accepted
import Flowchart.Proofs.Outline.Completeness
import Flowchart.Proofs.Outline.Continued
import Flowchart.Proofs.Outline.Grammar
import Flowchart.Proofs.Outline.Identities
import Flowchart.Proofs.Outline.Kept
import Flowchart.Proofs.Outline.Mentions
import Flowchart.Proofs.Outline.Naming
import Flowchart.Proofs.Outline.ReadBack
import Flowchart.Proofs.Outline.Reading
import Flowchart.Proofs.Outline.Renamed
import Flowchart.Proofs.Outline.Repeated
import Flowchart.Proofs.Outline.Shape
import Flowchart.Proofs.Outline.Soundness
import Flowchart.Proofs.Outline.Spans
import Flowchart.Proofs.Outline.Stopping
import Flowchart.Proofs.Outline.Tokens
import Flowchart.Proofs.Program.Blank
import Flowchart.Proofs.Program.Storing
import Flowchart.Proofs.Program.Structure
import Flowchart.Proofs.Results
import Flowchart.Proofs.Revision.Appended
import Flowchart.Proofs.Revision.Cached
import Flowchart.Proofs.Revision.Climbing
import Flowchart.Proofs.Revision.Difference
import Flowchart.Proofs.Revision.Entries
import Flowchart.Proofs.Revision.Eviction
import Flowchart.Proofs.Revision.Kinship
import Flowchart.Proofs.Revision.Lengthened
import Flowchart.Proofs.Revision.Lookup
import Flowchart.Proofs.Revision.Ordered
import Flowchart.Proofs.Revision.Renumbering
import Flowchart.Proofs.Revision.Returning
import Flowchart.Proofs.Revision.Reuse
import Flowchart.Proofs.Revision.Runs
import Flowchart.Proofs.Revision.Unchanged
import Flowchart.Proofs.Route.Attached
import Flowchart.Proofs.Route.Blank
import Flowchart.Proofs.Route.Branches
import Flowchart.Proofs.Route.Channel
import Flowchart.Proofs.Route.Clear
import Flowchart.Proofs.Route.Constructs
import Flowchart.Proofs.Route.Crossing
import Flowchart.Proofs.Route.Declarations
import Flowchart.Proofs.Route.Exits
import Flowchart.Proofs.Route.Inside
import Flowchart.Proofs.Route.Owned
import Flowchart.Proofs.Route.Polyline
import Flowchart.Proofs.Route.Rigid
import Flowchart.Proofs.Route.Routed
import Flowchart.Proofs.Route.Shape
import Flowchart.Proofs.Route.Spines
import Flowchart.Proofs.Route.Straight
import Flowchart.Proofs.Scalar.Exact
import Flowchart.Proofs.Scalar.Nearness
import Flowchart.Proofs.Scalar.Single
import Flowchart.Proofs.Scalar.Value
import Flowchart.Proofs.Settings.Accepted
import Flowchart.Proofs.Tree.Limits
import Flowchart.Proofs.Tree.Located
import Flowchart.Proofs.Tree.Matching
import Flowchart.Proofs.Tree.Placement
import Flowchart.Proofs.Tree.Reading
import Flowchart.Proofs.Tree.Removal
import Flowchart.Proofs.Tree.Reported
import Flowchart.Proofs.Tree.Traversal
import Flowchart.Proofs.Tree.Verdict
import Flowchart.Proofs.Tree.WellFormed
import Flowchart.Proofs.Tree.Whole
import Flowchart.Proofs.View.Hit
import Flowchart.Proofs.View.Redraw
import Flowchart.Proofs.View.Zoom
import Flowchart.Revision.Session
