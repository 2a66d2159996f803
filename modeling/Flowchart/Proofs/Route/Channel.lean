import Flowchart.Proofs.Flow.Conduct
import Flowchart.Proofs.Route.Exits
import Flowchart.Proofs.Route.Inside

/-!
# Channels

A construct with nothing declared in it keeps a channel free for the flow through
it.  Flow enters on the spine, every edge inside has a clear way, and every exit
left open has a lane down to the bottom.  Constructs with their spines on one line
make one channel, one below the other.
-/

namespace Flowchart

open Scalar

structure Channel (settings : LayoutSettings Rat)
    (nodes : List (DiagramNode Rat)) (bounds : Rect Rat) (line : Rat)
    (wiring : Wiring) : Prop where
  within : Figures nodes (Rect.Inside · bounds)
  left : bounds.minX ≤ line
  right : line ≤ bounds.maxX
  tall : bounds.minY ≤ bounds.maxY
  edges : ∀ edge ∈ wiring.edges, IsClear settings nodes bounds edge
  entered : ∃ id tag target, wiring.entry = some (⟨id, .entry⟩, tag) ∧
    target ∈ nodes ∧ target.id = id ∧
    target.anchor? .entry = some ⟨line, bounds.minY⟩
  exits : ∀ exit ∈ wiring.exits, ∃ source start lane,
    Leaves settings nodes bounds line exit source start lane

/-- An exit of a construct leads past all that lies above the construct. -/
theorem Leaves.mono {settings : LayoutSettings Rat}
    {nodes more : List (DiagramNode Rat)} {bounds outer : Rect Rat}
    {line lane : Rat} {exit : OpenExit} {source : DiagramNode Rat}
    {start : Point Rat}
    (leaves : Leaves settings nodes bounds line exit source start lane)
    (subset : nodes ⊆ more) (within : bounds.Inside outer)
    (bottom : bounds.maxY = outer.maxY)
    (others : ∀ node ∈ more, node ∈ nodes ∨
      ∀ figure, node.figure = some figure → figure.maxY ≤ bounds.minY) :
    Leaves settings more outer line exit source start lane where
  sourceIn := subset leaves.sourceIn
  isSource := leaves.isSource
  isStart := leaves.isStart
  kind := bottom ▸ leaves.kind
  right := leaves.right
  laneRight := leaves.laneRight
  laneInside := leaves.laneInside.trans within.2.1
  top := within.2.2.1.trans leaves.top
  bottom := leaves.bottom.trans within.2.2.2
  sideways := by
    intro node nodeIn figure isFigure
    rcases others node nodeIn with inNodes | above
    · exact leaves.sideways node inNodes figure isFigure
    · have clear := (above figure isFigure).trans leaves.top
      exact .inr (.inr (.inr ⟨clear, clear⟩))
  downwards := by
    intro node nodeIn figure isFigure
    rcases others node nodeIn with inNodes | above
    · exact leaves.downwards node inNodes figure isFigure
    · exact .inr (.inr ((above figure isFigure).trans leaves.top))

namespace Channel

variable {settings : LayoutSettings Rat} {nodes more : List (DiagramNode Rat)}
  {bounds : Rect Rat} {line : Rat} {wiring next : Wiring}

theorem entry_holds (channel : Channel settings nodes bounds line wiring) :
    bounds.Holds ⟨line, bounds.minY⟩ :=
  ⟨channel.left, channel.right, le_refl _, channel.tall⟩

/-- The same channel in a wider place, among more nodes that have no figure. -/
theorem widen (channel : Channel settings nodes bounds line wiring)
    {left right : Rat} (leftOf : left ≤ bounds.minX)
    (rightOf : bounds.maxX ≤ right) (subset : nodes ⊆ more)
    (bare : ∀ node ∈ more, node ∈ nodes ∨ node.figure = none) :
    Channel settings more ⟨left, bounds.minY, right, bounds.maxY⟩ line
      wiring := by
  have wider : bounds.Inside ⟨left, bounds.minY, right, bounds.maxY⟩ :=
    ⟨leftOf, rightOf, le_refl _, le_refl _⟩
  have noFigure : ∀ holds : Rect Rat → Prop, ∀ node ∈ more, node ∈ nodes ∨
      ∀ figure, node.figure = some figure → holds figure := by
    intro holds node nodeIn
    refine (bare node nodeIn).imp_right fun isBare figure isFigure => ?_
    rw [isBare] at isFigure
    cases isFigure
  obtain ⟨id, tag, target, isEntry, targetIn, isTarget, isAnchor⟩ :=
    channel.entered
  exact {
    within := by
      intro node nodeIn figure isFigure
      rcases noFigure (Rect.Inside · _) node nodeIn with inNodes | isBare
      · exact (channel.within node inNodes figure isFigure).trans wider
      · exact isBare figure isFigure
    left := leftOf.trans channel.left
    right := channel.right.trans rightOf
    tall := channel.tall
    edges := fun edge edgeIn =>
      (channel.edges edge edgeIn).mono subset wider (noFigure _)
    entered :=
      ⟨id, tag, target, isEntry, subset targetIn, isTarget, isAnchor⟩
    exits := fun exit exitIn => by
      obtain ⟨source, start, lane, leaves⟩ := channel.exits exit exitIn
      exact ⟨source, start, lane, leaves.mono subset wider rfl (noFigure _)⟩ }

/-! ## The node of a construct -/

section Own

variable {arrangement : Arrangement Rat} (fits : arrangement.Fits)
  (origin : Point Rat) (parent : Option NodeId) (depth : Nat)

include fits

/-- Flow enters a construct at the top of its spine. -/
theorem of_fits {tag : Tag}
    (isEntry : wiring.entry = some (⟨arrangement.label.id, .entry⟩, tag))
    (onTop : arrangement.label.anchors.lookup .entry =
      some ⟨arrangement.label.spine, 0⟩)
    (edges : ∀ edge ∈ wiring.edges,
      IsClear settings (arrangement.place origin parent depth)
        (arrangement.label.bounds origin) edge)
    (exits : ∀ exit ∈ wiring.exits, ∃ source start lane,
      Leaves settings (arrangement.place origin parent depth)
        (arrangement.label.bounds origin)
        (origin.x + arrangement.label.spine) exit source start lane) :
    Channel settings (arrangement.place origin parent depth)
      (arrangement.label.bounds origin) (origin.x + arrangement.label.spine)
      wiring where
  within := Arrangement.figures_inside fits origin parent depth
  left := by
    have spineNonneg := fits.root.spine_nonneg
    simp only [Frame.bounds, Rect.ofTopLeft]
    linarith
  right := by
    have spineLe := fits.root.spine_le
    simp only [Frame.bounds, Rect.ofTopLeft]
    linarith
  tall := by
    have heightNonneg := fits.root.height_nonneg
    simp only [Frame.bounds, Rect.ofTopLeft]
    linarith
  edges
  entered := by
    refine ⟨_, tag, _, isEntry,
      Arrangement.self_mem_place origin parent depth arrangement, rfl, ?_⟩
    rw [Arrangement.anchor?_nodeAt onTop, add_zero]
    rfl
  exits

/-- Flow that goes on below a construct leaves it at the bottom of its spine. -/
theorem leaves_bottom {exit : OpenExit} (kind : exit.kind = .sequential)
    (isSource : exit.source.node = arrangement.label.id)
    (atBottom : arrangement.label.anchors.lookup exit.source.anchor =
      some ⟨arrangement.label.spine, arrangement.label.size.height⟩) :
    Leaves settings (arrangement.place origin parent depth)
      (arrangement.label.bounds origin) (origin.x + arrangement.label.spine)
      exit
      (Arrangement.nodeAt origin parent depth arrangement.tag arrangement.label)
      ⟨origin.x + arrangement.label.spine,
        origin.y + arrangement.label.size.height⟩
      (origin.x + arrangement.label.spine) := by
  have figures := Arrangement.figures_inside fits origin parent depth
  exact {
    sourceIn := Arrangement.self_mem_place origin parent depth arrangement
    isSource := isSource.symm
    isStart := Arrangement.anchor?_nodeAt atBottom
    kind := .inl ⟨kind, rfl, rfl⟩
    right := le_refl _
    laneRight := le_refl _
    laneInside := by
      have spineLe := fits.root.spine_le
      simp only [Frame.bounds, Rect.ofTopLeft]
      linarith
    top := by
      have heightNonneg := fits.root.height_nonneg
      simp only [Frame.bounds, Rect.ofTopLeft]
      linarith
    bottom := le_refl _
    sideways := fun node nodeIn figure isFigure => by
      obtain ⟨-, -, -, bottom⟩ := figures node nodeIn figure isFigure
      exact .inr (.inr (.inr ⟨bottom, bottom⟩))
    downwards := fun node nodeIn figure isFigure => by
      obtain ⟨-, -, -, bottom⟩ := figures node nodeIn figure isFigure
      exact .inr (.inr bottom) }

end Own

/-! ## Constructs one below the other -/

/-- Both constructs have the same width and the same line. -/
theorem followedBy {left right top bottom nextTop nextBottom : Rat}
    (first : Channel settings nodes ⟨left, top, right, bottom⟩ line wiring)
    (second : Channel settings more ⟨left, nextTop, right, nextBottom⟩ line next)
    (ordered : bottom ≤ nextTop) :
    Channel settings (nodes ++ more) ⟨left, top, right, nextBottom⟩ line
      (wiring.followedBy next) := by
  have tall : top ≤ bottom := first.tall
  have nextTall : nextTop ≤ nextBottom := second.tall
  have firstInside : Rect.Inside ⟨left, top, right, bottom⟩
      ⟨left, top, right, nextBottom⟩ :=
    ⟨le_refl _, le_refl _, le_refl _, ordered.trans nextTall⟩
  have secondInside : Rect.Inside ⟨left, nextTop, right, nextBottom⟩
      ⟨left, top, right, nextBottom⟩ :=
    ⟨le_refl _, le_refl _, tall.trans ordered, le_refl _⟩
  have aboveSecond : ∀ node ∈ nodes, ∀ figure, node.figure = some figure →
      figure.maxY ≤ nextTop := by
    intro node nodeIn figure isFigure
    obtain ⟨-, -, -, above⟩ := first.within node nodeIn figure isFigure
    exact above.trans ordered
  have belowFirst : ∀ node ∈ nodes ++ more, node ∈ nodes ∨
      ∀ figure, node.figure = some figure → nextTop ≤ figure.minY := by
    intro node nodeIn
    refine (List.mem_append.mp nodeIn).imp_right fun inMore figure isFigure => ?_
    obtain ⟨-, -, below, -⟩ := second.within node inMore figure isFigure
    exact below
  obtain ⟨id, tag, target, isEntry, targetIn, isTarget, isAnchor⟩ :=
    first.entered
  obtain ⟨nextId, nextTag, nextTarget, isNextEntry, nextTargetIn, isNextTarget,
    isNextAnchor⟩ := second.entered
  have entry_eq : (wiring.followedBy next).entry = some (⟨id, .entry⟩, tag) :=
    (Wiring.entry_followedBy (by rw [isEntry]; rfl)).trans isEntry
  have exits_eq : (wiring.followedBy next).exits = next.exits :=
    Wiring.exits_followedBy (by rw [isNextEntry]; rfl)
  exact {
    within := by
      refine Figures.append (first.within.imp fun _ within => ?_)
        (second.within.imp fun _ within => ?_)
      · exact within.trans firstInside
      · exact within.trans secondInside
    left := first.left
    right := first.right
    tall := (tall.trans ordered).trans nextTall
    edges := by
      intro edge edgeIn
      rcases Conducts.mem_followedBy_edges.mp edgeIn with inFirst | inNext |
        ⟨exit, exitIn, connects⟩
      · refine (first.edges edge inFirst).mono (List.subset_append_left _ _)
          firstInside fun node nodeIn => ?_
        refine (belowFirst node nodeIn).imp_right fun below figure isFigure => ?_
        exact .inr (.inr (.inr (ordered.trans (below figure isFigure))))
      · refine (second.edges edge inNext).mono (List.subset_append_right _ _)
          secondInside fun node nodeIn => ?_
        refine (List.mem_append.mp nodeIn).symm.imp_right
          fun inNodes figure isFigure => ?_
        exact .inr (.inr (.inl (aboveSecond node inNodes figure isFigure)))
      · obtain rfl : edge = exit.connect ⟨nextId, .entry⟩ nextTag := by
          simpa [OpenExit.connectTo, isNextEntry] using connects
        obtain ⟨source, start, lane, leaves⟩ := first.exits exit exitIn
        exact ⟨source, nextTarget, start, ⟨line, nextTop⟩,
          leaves.way_entry first.within first.left rfl
            (List.mem_append_right _ nextTargetIn) isNextTarget isNextAnchor
            ordered (List.subset_append_left _ _) firstInside nextTall
            belowFirst⟩
    entered := ⟨id, tag, target, entry_eq, List.mem_append_left _ targetIn,
      isTarget, isAnchor⟩
    exits := by
      rw [exits_eq]
      intro exit exitIn
      obtain ⟨source, start, lane, leaves⟩ := second.exits exit exitIn
      refine ⟨source, start, lane, leaves.mono (List.subset_append_right _ _)
        secondInside rfl fun node nodeIn => ?_⟩
      exact (List.mem_append.mp nodeIn).symm.imp_right (aboveSecond node) }

end Channel

/-- A member of a block with its place. -/
structure Piece where
  nodes : List (DiagramNode Rat)
  top : Rat
  bottom : Rat
  member : Tag × NodeId × Wiring

namespace Piece

def wiring (piece : Piece) : Wiring := piece.member.2.2

/-- Each piece lies below all before it. -/
def Ordered (pieces : List Piece) : Prop :=
  pieces.Pairwise fun first second => first.bottom ≤ second.top

end Piece

/-- Members one below the other make one channel. -/
theorem Channel.chain {settings : LayoutSettings Rat} {left right line : Rat}
    {pieces : List Piece} {first last : Piece}
    (each : ∀ piece ∈ pieces, Channel settings piece.nodes
      ⟨left, piece.top, right, piece.bottom⟩ line piece.wiring)
    (ordered : Piece.Ordered pieces) (isFirst : pieces.head? = some first)
    (isLast : pieces.getLast? = some last) :
    Channel settings (pieces.flatMap Piece.nodes)
      ⟨left, first.top, right, last.bottom⟩ line
      (.chain (pieces.map Piece.wiring)) := by
  induction pieces using List.reverseRecOn generalizing last with
  | nil => cases isFirst
  | append_singleton pieces final ih =>
      obtain rfl : final = last := by simpa using isLast
      have finalChannel := each final (by simp)
      rw [List.map_append, List.map_singleton, List.flatMap_append,
        List.flatMap_singleton]
      rcases List.eq_nil_or_concat' pieces with rfl | ⟨before, previous, rfl⟩
      · obtain rfl : final = first := by simpa using isFirst
        rw [List.map_nil, List.nil_append, Program.chain_singleton]
        exact finalChannel
      · obtain ⟨orderedBefore, -, ordered⟩ := List.pairwise_append.mp ordered
        rw [Program.chain_snoc]
        refine (ih (fun piece pieceIn =>
          each piece (List.mem_append_left _ pieceIn)) orderedBefore ?_
          (List.getLast?_concat ..)).followedBy finalChannel
          (ordered previous (by simp) final (by simp))
        cases before <;> simpa using isFirst

end Flowchart
