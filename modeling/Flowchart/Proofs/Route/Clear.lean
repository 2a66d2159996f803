import Flowchart.Proofs.Route.Polyline
import Flowchart.Route.Router

/-!
# Edges with a clear way

The waypoints of an edge stay inside the part of the diagram that the edge
belongs to, and keep to one side of every figure in it on each leg.
-/

namespace Flowchart

open Scalar

namespace Rect

theorem avoided_of_beside {rect : Rect Rat} {waypoints : List (Point Rat)}
    (beside : ∀ first ∈ waypoints, ∀ second ∈ waypoints,
      rect.Beside first second) : rect.Avoided waypoints :=
  (List.pairwise_of_forall_mem_list fun first firstIn second secondIn =>
    beside first firstIn second secondIn).isChain

theorem avoided_of_below {rect : Rect Rat} {waypoints : List (Point Rat)}
    (below : ∀ point ∈ waypoints, rect.maxY ≤ point.y) :
    rect.Avoided waypoints :=
  avoided_of_beside fun first firstIn second secondIn =>
    .inr (.inr (.inr ⟨below first firstIn, below second secondIn⟩))

theorem avoided_of_above {rect : Rect Rat} {waypoints : List (Point Rat)}
    (above : ∀ point ∈ waypoints, point.y ≤ rect.minY) :
    rect.Avoided waypoints :=
  avoided_of_beside fun first firstIn second secondIn =>
    .inr (.inr (.inl ⟨above first firstIn, above second secondIn⟩))

theorem Apart.avoided {rect box : Rect Rat} (apart : rect.Apart box)
    {waypoints : List (Point Rat)}
    (inside : ∀ point ∈ waypoints, box.Holds point) : rect.Avoided waypoints :=
  avoided_of_beside fun first firstIn second secondIn =>
    apart.beside (inside first firstIn) (inside second secondIn)

end Rect

/-- Every figure of some nodes has a property. -/
def Figures (nodes : List (DiagramNode Rat)) (holds : Rect Rat → Prop) : Prop :=
  ∀ node ∈ nodes, ∀ figure, node.figure = some figure → holds figure

theorem Figures.imp {nodes : List (DiagramNode Rat)}
    {holds others : Rect Rat → Prop} (figures : Figures nodes holds)
    (weaker : ∀ figure, holds figure → others figure) : Figures nodes others :=
  fun node nodeIn figure isFigure =>
    weaker figure (figures node nodeIn figure isFigure)

theorem Figures.append {nodes more : List (DiagramNode Rat)}
    {holds : Rect Rat → Prop} (first : Figures nodes holds)
    (second : Figures more holds) : Figures (nodes ++ more) holds := by
  intro node nodeIn
  rcases List.mem_append.mp nodeIn with inFirst | inSecond
  · exact first node inFirst
  · exact second node inSecond

/-- An edge between two of the nodes has a way inside the bounds that is clear of
their figures. -/
structure HasWay (settings : LayoutSettings Rat)
    (nodes : List (DiagramNode Rat)) (bounds : Rect Rat) (edge : Edge)
    (source target : DiagramNode Rat) (start finish : Point Rat) : Prop where
  sourceIn : source ∈ nodes
  targetIn : target ∈ nodes
  isSource : source.id = edge.source.node
  isTarget : target.id = edge.target.node
  isStart : source.anchor? edge.source.anchor = some start
  isFinish : target.anchor? edge.target.anchor = some finish
  keeps : (Polyline.ofPoints
      (settings.waypoints source target edge start finish)).Keeps
    (settings.waypoints source target edge start finish)
  inside : ∀ point ∈ settings.waypoints source target edge start finish,
    bounds.Holds point
  clear : Figures nodes fun figure =>
    figure.Avoided (settings.waypoints source target edge start finish)

def IsClear (settings : LayoutSettings Rat) (nodes : List (DiagramNode Rat))
    (bounds : Rect Rat) (edge : Edge) : Prop :=
  ∃ source target start finish,
    HasWay settings nodes bounds edge source target start finish

/-- An edge inside a part of the diagram is clear of everything around it. -/
theorem IsClear.mono {settings : LayoutSettings Rat}
    {nodes more : List (DiagramNode Rat)} {bounds outer : Rect Rat} {edge : Edge}
    (isClear : IsClear settings nodes bounds edge) (subset : nodes ⊆ more)
    (within : bounds.Inside outer)
    (around : ∀ node ∈ more, node ∈ nodes ∨
      ∀ figure, node.figure = some figure → figure.Apart bounds) :
    IsClear settings more outer edge := by
  obtain ⟨source, target, start, finish, way⟩ := isClear
  exact ⟨source, target, start, finish, { way with
    sourceIn := subset way.sourceIn
    targetIn := subset way.targetIn
    inside := fun point pointIn => within.holds (way.inside point pointIn)
    clear := by
      intro node nodeIn figure isFigure
      rcases around node nodeIn with inNodes | apart
      · exact way.clear node inNodes figure isFigure
      · exact (apart figure isFigure).avoided way.inside }⟩

/-! ## Waypoints of connected exits -/

namespace LayoutSettings

variable {settings : LayoutSettings Rat} {source target : DiagramNode Rat}
  {edge : Edge} {start finish : Point Rat}

/-- Straight down to a turn halfway, sideways, and down to an entry. -/
theorem waypoints_straight (plain : edge.kind.isLateral = false)
    (isEntry : edge.target.anchor = .entry) :
    settings.waypoints source target edge start finish =
      Polyline.stairs start.x start.y start.x ((start.y + finish.y) / 2)
        finish.x finish.y := by
  cases kind : edge.kind <;>
    simp_all [waypoints, descent, ConnectorKind.isLateral, half_exact]

end LayoutSettings

end Flowchart
