import Flowchart.Proofs.Flow.Lateral
import Flowchart.Proofs.Layout.Enclosed
import Flowchart.Proofs.Route.Routed

/-!
# Connectors inside their owners

In exact arithmetic a connector stays inside the lowest node that has both its
ends in it: its corners lie across from points of the two nodes, and so do the
lanes, for which these nodes have room.
-/

namespace Flowchart

open Scalar

/-! ## Points on a path -/

/-- A point is a corner of a path or lies between two. -/
def Polyline.Passes (line : Polyline Rat) (point : Point Rat) : Prop :=
  point ∈ line.points ∨ ∃ segment ∈ line.segments, segment.Passes point

theorem share_between {low high first last share : Rat} (nonneg : 0 ≤ share)
    (le_one : share ≤ 1) (first_le : low ≤ first ∧ first ≤ high)
    (last_le : low ≤ last ∧ last ≤ high) :
    low ≤ first + share * (last - first) ∧
      first + share * (last - first) ≤ high := by
  have rest : 0 ≤ 1 - share := by linarith
  constructor
  · have above := mul_nonneg rest (sub_nonneg.mpr first_le.1)
    have aboveToo := mul_nonneg nonneg (sub_nonneg.mpr last_le.1)
    linarith
  · have below := mul_nonneg rest (sub_nonneg.mpr first_le.2)
    have belowToo := mul_nonneg nonneg (sub_nonneg.mpr last_le.2)
    linarith

/-- A rectangle that holds both ends of a segment holds all of it. -/
theorem Segment.Passes.held {segment : Segment Rat} {point : Point Rat}
    (passes : segment.Passes point) {rect : Rect Rat}
    (startIn : rect.Holds segment.start) (finishIn : rect.Holds segment.finish) :
    rect.Holds point := by
  obtain ⟨share, nonneg, le_one, isX, isY⟩ := passes
  have across : rect.Across point.x :=
    isX ▸ share_between nonneg le_one startIn.across finishIn.across
  have along : rect.Along point.y :=
    isY ▸ share_between nonneg le_one startIn.along finishIn.along
  exact across.holds along

namespace Polyline

theorem mem_of_mem_segments {line : Polyline Rat} :
    ∀ segment ∈ line.segments,
      segment.start ∈ line.points ∧ segment.finish ∈ line.points :=
  forall_segments_iff.mpr (List.pairwise_of_forall_mem_list
    fun _ firstIn _ secondIn => And.intro firstIn secondIn).isChain

/-- A path stays inside a rectangle that holds all its waypoints. -/
theorem Passes.held {points : List (Point Rat)} {point : Point Rat}
    (passes : (ofPoints points).Passes point) {rect : Rect Rat}
    (inside : ∀ waypoint ∈ points, rect.Holds waypoint) : rect.Holds point := by
  have corners := (ofPoints_sublist points).subset
  rcases passes with isCorner | ⟨segment, segmentIn, passes⟩
  · exact inside point (corners isCorner)
  · obtain ⟨startIn, finishIn⟩ := mem_of_mem_segments segment segmentIn
    exact passes.held (inside _ (corners startIn)) (inside _ (corners finishIn))

end Polyline

/-! ## Waypoints -/

namespace LayoutSettings

variable {settings : LayoutSettings Rat} {source target : DiagramNode Rat}
  {edge : Edge} {start finish : Point Rat}

/-- The lane of a connector goes through the node that it leaves. -/
theorem across_descent (suits : edge.kind.Suits edge.source.anchor)
    (startIn : source.bounds.Holds start)
    (clearance : 0 < settings.loopClearance) (gap : 0 < settings.branchGap)
    (loop : edge.source.anchor = .loopExit →
      source.bounds.minX + settings.loopClearance ≤ source.bounds.maxX)
    (decision : edge.source.anchor = .branchFalse →
      source.bounds.minX + settings.branchGap ≤ source.bounds.maxX) :
    source.bounds.Across (settings.descent source edge start) := by
  unfold descent
  split
  · have room := loop (suits.loopExit ‹_›)
    rw [half_exact]
    exact ⟨by linarith, by linarith⟩
  · have room := decision (suits.branchFalse ‹_›)
    rw [half_exact]
    exact ⟨by linarith, by linarith⟩
  · exact startIn.across

/-- All waypoints lie inside any bounds that hold both nodes: each is on a line
across one of the nodes and on a line along one of them. -/
theorem waypoints_inside {bounds : Rect Rat}
    (sourceInside : source.bounds.Inside bounds)
    (targetInside : target.bounds.Inside bounds)
    (startIn : source.bounds.Holds start) (finishIn : target.bounds.Holds finish)
    (lane : source.bounds.Across (settings.descent source edge start))
    (clearance : 0 < settings.loopClearance)
    (spacing : 0 < settings.statementSpacing)
    (loop : edge.target.anchor = .loopBack →
      target.bounds.minX + settings.loopClearance ≤ target.bounds.maxX ∧
        target.bounds.minY + settings.statementSpacing ≤ target.bounds.maxY) :
    ∀ point ∈ settings.waypoints source target edge start finish,
      bounds.Holds point := by
  have startHeld := sourceInside.holds startIn
  have finishHeld := targetInside.holds finishIn
  have laneAcross := sourceInside.across lane
  unfold waypoints
  split
  case h_1 isBack =>
    obtain ⟨wide, high⟩ := loop isBack
    have turnAlong : target.bounds.Along
        (target.bounds.maxY - half settings.statementSpacing) := by
      rw [half_exact]
      exact ⟨by linarith, by linarith⟩
    have returnAcross : target.bounds.Across
        (target.bounds.minX + half settings.loopClearance) := by
      rw [half_exact]
      exact ⟨by linarith, by linarith⟩
    replace turnAlong := targetInside.along turnAlong
    replace returnAcross := targetInside.across returnAcross
    simp only [List.forall_mem_cons]
    exact ⟨startHeld, laneAcross.holds startHeld.along,
      laneAcross.holds turnAlong, returnAcross.holds turnAlong,
      returnAcross.holds finishHeld.along, finishHeld, List.forall_mem_nil _⟩
  case h_2 | h_3 =>
    simp only [List.forall_mem_cons]
    exact ⟨startHeld, laneAcross.holds startHeld.along,
      laneAcross.holds finishHeld.along, finishHeld, List.forall_mem_nil _⟩
  case h_4 =>
    simp only [List.forall_mem_cons]
    exact ⟨startHeld, finishHeld.across.holds startHeld.along, finishHeld,
      List.forall_mem_nil _⟩
  case h_5 =>
    have bottomAlong : source.bounds.Along source.bounds.maxY :=
      ⟨startIn.along.1.trans startIn.along.2, le_refl _⟩
    have turnAlong : bounds.Along
        (if edge.kind.isLateral then half (source.bounds.maxY + finish.y)
          else half (start.y + finish.y)) := by
      split
      · exact (sourceInside.along bottomAlong).half finishHeld.along
      · exact startHeld.along.half finishHeld.along
    simp only [List.forall_mem_cons]
    exact ⟨startHeld, laneAcross.holds startHeld.along,
      laneAcross.holds turnAlong, finishHeld.across.holds turnAlong,
      finishHeld, List.forall_mem_nil _⟩

end LayoutSettings

/-! ## Nodes with room for lanes -/

namespace Program

variable {settings : LayoutSettings Rat} (accepted : settings.Accepted)
  (program : Program (Label Rat)) (corner : Point Rat) (outer : Option NodeId)
  (level : Nat)

theorem anchor_of_shown {entry : Anchor × Point Rat}
    (entryIn : entry ∈ (program.shownAt settings corner outer level).anchors) :
    entry.1 ∈ program.anchors := by
  obtain ⟨original, originalIn, rfl⟩ := List.mem_map.mp entryIn
  rw [← anchors_framed settings]
  exact List.mem_map.mpr ⟨original, originalIn, rfl⟩

include accepted

theorem loop_room {anchor : Anchor} (anchorIn : anchor ∈ program.anchors)
    (isLoop : anchor = .loopBack ∨ anchor = .loopExit) :
    (program.shownAt settings corner outer level).bounds.minX +
          settings.loopClearance ≤
        (program.shownAt settings corner outer level).bounds.maxX ∧
      (program.shownAt settings corner outer level).bounds.minY +
          settings.statementSpacing ≤
        (program.shownAt settings corner outer level).bounds.maxY := by
  obtain ⟨label, kind, body, rfl⟩ := eq_loop_of_anchor isLoop anchorIn
  have isFrame : (framed settings (.loop label kind body)).label =
      Frame.loop label (Arrangement.figureSize settings (.loop kind) label)
        settings (body.framed settings).label := rfl
  obtain ⟨wide, high⟩ := accepted.figureSize_pos (.loop kind) label
  obtain ⟨-, left, right, -⟩ := Channel.loop_sides isFrame
  have clearance := accepted.clearance_pos
  have gap := accepted.spacing_pos
  have tall := (sound_framed accepted body).height_nonneg
  rw [bounds_shownAt]
  constructor
  · linarith
  · rw [isFrame, Frame.loop_height]
    linarith

theorem decision_room (anchorIn : .branchFalse ∈ program.anchors) :
    (program.shownAt settings corner outer level).bounds.minX +
        settings.branchGap ≤
      (program.shownAt settings corner outer level).bounds.maxX := by
  obtain ⟨label, consequent, alternative, rfl⟩ := eq_decision_of_anchor anchorIn
  obtain ⟨wide, -⟩ := accepted.figureSize_pos .decision label
  obtain ⟨-, right⟩ := Frame.le_decisionRight
    (Arrangement.figureSize settings .decision label)
    (consequent.framed settings).label
  have halfLe := le_max_right (consequent.framed settings).label.spine
    ((Arrangement.figureSize settings .decision label).width / 2)
  rw [bounds_shownAt]
  cases alternative with
  | none =>
      rw [framed, Program.label, Frame.decision_width, Option.map_none,
        Option.getD_none]
      linarith
  | some alternative =>
      have sound := sound_framed accepted alternative
      have widthNonneg := sound.spine_nonneg.trans sound.spine_le
      rw [framed, Program.label, Frame.decision_width, Option.map_some,
        Option.getD_some]
      linarith

end Program

namespace Diagram

variable {settings : LayoutSettings Rat} {diagram : Diagram Rat}

/-- Where connectors go down a lane, there is a node that has room for it. -/
structure HasLanes (settings : LayoutSettings Rat) (diagram : Diagram Rat) :
    Prop where
  suited : ∀ edge ∈ diagram.edges, edge.kind.Suits edge.source.anchor
  loop : ∀ node ∈ diagram.nodes, ∀ entry ∈ node.anchors,
    entry.1 = .loopBack ∨ entry.1 = .loopExit →
      node.bounds.minX + settings.loopClearance ≤ node.bounds.maxX ∧
        node.bounds.minY + settings.statementSpacing ≤ node.bounds.maxY
  decision : ∀ node ∈ diagram.nodes, ∀ entry ∈ node.anchors,
    entry.1 = .branchFalse →
      node.bounds.minX + settings.branchGap ≤ node.bounds.maxX

theorem hasLanes_unmarked (accepted : settings.Accepted)
    {program : Program (Label Rat)} (distinct : program.ids.Nodup) :
    (unmarked (program.framed settings)).HasLanes settings where
  suited := by
    rw [unmarked, Program.map_framed]
    exact ((program.map Label.id).wire_suited false).edges
  loop := by
    intro node nodeIn entry entryIn isLoop
    obtain ⟨inner, -, corner, outer, level, rfl, -⟩ :=
      exists_shownAt distinct nodeIn
    exact inner.loop_room accepted corner outer level
      (inner.anchor_of_shown corner outer level entryIn) isLoop
  decision := by
    intro node nodeIn entry entryIn isDecision
    obtain ⟨inner, -, corner, outer, level, rfl, -⟩ :=
      exists_shownAt distinct nodeIn
    exact inner.decision_room accepted corner outer level
      (isDecision ▸ inner.anchor_of_shown corner outer level entryIn)

theorem HasLanes.markReachable (lanes : diagram.HasLanes settings)
    (starts : List NodeId) :
    (diagram.markReachable starts).HasLanes settings where
  suited := by
    intro edge edgeIn
    obtain ⟨plain, plainIn, rfl⟩ := List.mem_map.mp edgeIn
    exact lanes.suited plain plainIn
  loop := by
    intro node nodeIn
    obtain ⟨plain, plainIn, rfl⟩ := List.mem_map.mp nodeIn
    exact lanes.loop plain plainIn
  decision := by
    intro node nodeIn
    obtain ⟨plain, plainIn, rfl⟩ := List.mem_map.mp nodeIn
    exact lanes.decision plain plainIn

/-! ## Lowest owners -/

/-- A node is another one or stands above it. -/
def Owns (nodes : List (DiagramNode Rat)) (owner node : DiagramNode Rat) :
    Prop :=
  owner = node ∨ Below nodes owner node

/-- The lowest node that owns two nodes: whatever owns both owns it too. -/
structure LowestOwner (nodes : List (DiagramNode Rat))
    (first second owner : DiagramNode Rat) : Prop where
  ownsFirst : Owns nodes owner first
  ownsSecond : Owns nodes owner second
  lowest : ∀ other, Owns nodes other first → Owns nodes other second →
    Owns nodes other owner

section Lowest

variable {nodes : List (DiagramNode Rat)}

theorem Owns.child {owner upper lower : DiagramNode Rat}
    (owns : Owns nodes owner upper) (upperIn : upper ∈ nodes)
    (lowerIn : lower ∈ nodes) (isParent : lower.parent = some upper.id) :
    Owns nodes owner lower := by
  rcases owns with rfl | below
  · exact .inr (.child upperIn lowerIn isParent)
  · exact .inr (.further below lowerIn isParent)

/-- Whatever stands above a node owns its parent. -/
theorem Below.owns_parent (distinct : (nodes.map DiagramNode.id).Nodup)
    {owner upper lower : DiagramNode Rat} (below : Below nodes owner lower)
    (upperIn : upper ∈ nodes) (isParent : lower.parent = some upper.id) :
    Owns nodes owner upper := by
  cases below with
  | child ownerIn _ isOwner =>
      have sameId := Option.some.inj (isOwner.symm.trans isParent)
      exact .inl (List.inj_on_of_nodup_map distinct ownerIn upperIn sameId)
  | further above _ isMiddle =>
      have sameId := Option.some.inj (isMiddle.symm.trans isParent)
      exact .inr (List.inj_on_of_nodup_map distinct above.lower_mem upperIn
        sameId ▸ above)

/-- A child has the lowest owner that its parent has, unless it owns the other
node itself. -/
theorem LowestOwner.child (distinct : (nodes.map DiagramNode.id).Nodup)
    {owner upper lower second : DiagramNode Rat}
    (isLowest : LowestOwner nodes upper second owner) (upperIn : upper ∈ nodes)
    (lowerIn : lower ∈ nodes) (isParent : lower.parent = some upper.id) :
    LowestOwner nodes lower second owner ∨
      LowestOwner nodes lower second lower := by
  by_cases ownsSecond : Owns nodes lower second
  · exact .inr ⟨.inl rfl, ownsSecond, fun other ownsLower _ => ownsLower⟩
  · refine .inl ⟨isLowest.ownsFirst.child upperIn lowerIn isParent,
      isLowest.ownsSecond, fun other ownsLower otherOwns => ?_⟩
    rcases ownsLower with rfl | below
    · exact absurd otherOwns ownsSecond
    · exact isLowest.lowest other (below.owns_parent distinct upperIn isParent)
        otherOwns

/-- Any two nodes below a root have a lowest owner, found on the way from the
root to one of them. -/
theorem exists_lowestOwner (distinct : (nodes.map DiagramNode.id).Nodup)
    {root first second : DiagramNode Rat} (rootIn : root ∈ nodes)
    (ownsFirst : Owns nodes root first) (ownsSecond : Owns nodes root second) :
    ∃ owner ∈ nodes, LowestOwner nodes first second owner := by
  have atRoot : LowestOwner nodes root second root :=
    ⟨.inl rfl, ownsSecond, fun _ ownsRoot _ => ownsRoot⟩
  rcases ownsFirst with rfl | below
  · exact ⟨root, rootIn, atRoot⟩
  · induction below with
    | @child lower _ lowerIn isParent =>
        rcases atRoot.child distinct rootIn lowerIn isParent with atRoot | atLower
        · exact ⟨root, rootIn, atRoot⟩
        · exact ⟨lower, lowerIn, atLower⟩
    | @further middle lower above lowerIn isParent ih =>
        obtain ⟨owner, ownerIn, isLowest⟩ := ih
        rcases isLowest.child distinct above.lower_mem lowerIn isParent with
          isLowest | atLower
        · exact ⟨owner, ownerIn, isLowest⟩
        · exact ⟨lower, lowerIn, atLower⟩

end Lowest

/-- Some node owns all nodes. -/
def Rooted (diagram : Diagram Rat) : Prop :=
  ∃ root ∈ diagram.nodes, ∀ node ∈ diagram.nodes, Owns diagram.nodes root node

theorem rooted_unmarked (settings : LayoutSettings Rat)
    (program : Program (Label Rat)) :
    (unmarked (program.framed settings)).Rooted := by
  refine ⟨_, Arrangement.self_mem_place .origin none 0 _, fun node nodeIn => ?_⟩
  rcases Arrangement.below_root nodeIn with rfl | below
  · exact .inl rfl
  · exact .inr below

theorem Rooted.markReachable (rooted : diagram.Rooted) {starts : List NodeId} :
    (diagram.markReachable starts).Rooted := by
  obtain ⟨root, rootIn, ownsAll⟩ := rooted
  refine ⟨diagram.marked starts root, List.mem_map_of_mem rootIn,
    fun node nodeIn => ?_⟩
  obtain ⟨plain, plainIn, rfl⟩ := List.mem_map.mp nodeIn
  rcases ownsAll plain plainIn with rfl | below
  · exact .inl rfl
  · exact .inr (below.map (diagram.marked starts) (fun _ => rfl) fun _ => rfl)

/-! ## Routed connectors -/

theorem mem_of_requireNode {id : NodeId} {node : DiagramNode Rat}
    (found : diagram.requireNode id = .ok node) :
    node ∈ diagram.nodes ∧ node.id = id := by
  unfold requireNode at found
  split at found
  case h_1 _ isNode =>
    cases found
    exact ⟨List.mem_of_find?_eq_some isNode,
      by simpa using List.find?_some isNode⟩
  case h_2 => cases found

theorem mem_of_requireAnchor {node : DiagramNode Rat} {anchor : Anchor}
    {point : Point Rat} (found : requireAnchor node anchor = .ok point) :
    (anchor, point) ∈ node.anchors := by
  unfold requireAnchor at found
  split at found
  case h_1 _ isAnchor =>
    cases found
    obtain ⟨before, after, entries, -⟩ := List.lookup_eq_some_iff.mp isAnchor
    rw [entries]
    exact List.mem_append_right _ List.mem_cons_self
  case h_2 => cases found

/-- A connector leads over the waypoints between two anchors. -/
theorem exists_of_connect {edge : Edge} {connector : Connector Rat}
    (connects : diagram.connect settings edge = .ok connector) :
    ∃ source ∈ diagram.nodes, ∃ target ∈ diagram.nodes, ∃ start finish,
      source.id = edge.source.node ∧ target.id = edge.target.node ∧
      (edge.source.anchor, start) ∈ source.anchors ∧
      (edge.target.anchor, finish) ∈ target.anchors ∧
      connector = ⟨edge,
        .ofPoints (settings.waypoints source target edge start finish)⟩ := by
  obtain ⟨path, isPath, checked⟩ := bind_eq_ok.mp connects
  obtain ⟨-, -, isConnector⟩ := bind_eq_ok.mp checked
  cases isConnector
  obtain ⟨source, isSource, further⟩ := bind_eq_ok.mp isPath
  obtain ⟨target, isTarget, anchored⟩ := bind_eq_ok.mp further
  obtain ⟨start, isStart, left⟩ := bind_eq_ok.mp anchored
  obtain ⟨finish, isFinish, isPolyline⟩ := bind_eq_ok.mp left
  cases isPolyline
  obtain ⟨sourceIn, sourceId⟩ := mem_of_requireNode isSource
  obtain ⟨targetIn, targetId⟩ := mem_of_requireNode isTarget
  exact ⟨source, sourceIn, target, targetIn, start, finish, sourceId, targetId,
    mem_of_requireAnchor isStart, mem_of_requireAnchor isFinish, rfl⟩

/-- Every point of a connector lies inside the lowest owner of the nodes that it
connects, and so inside the diagram. -/
def KeepsInside (diagram : Diagram Rat) (connector : Connector Rat) : Prop :=
  ∃ source ∈ diagram.nodes, ∃ target ∈ diagram.nodes, ∃ owner ∈ diagram.nodes,
    source.id = connector.source.node ∧ target.id = connector.target.node ∧
      LowestOwner diagram.nodes source target owner ∧
      ∀ point, connector.path.Passes point →
        owner.bounds.Holds point ∧ diagram.bounds.Holds point

theorem Encloses.owned (encloses : diagram.Encloses settings)
    {owner node : DiagramNode Rat} (owns : Owns diagram.nodes owner node) :
    node.bounds.Inside owner.bounds := by
  rcases owns with rfl | below
  · exact .refl _
  · exact encloses.below below

/-- A diagram that encloses its nodes and has lanes keeps its connectors inside. -/
theorem Encloses.keepsInside (accepted : settings.Accepted)
    (encloses : diagram.Encloses settings) (lanes : diagram.HasLanes settings)
    (rooted : diagram.Rooted)
    (distinct : (diagram.nodes.map DiagramNode.id).Nodup)
    {edge : Edge} (edgeIn : edge ∈ diagram.edges) {connector : Connector Rat}
    (connects : diagram.connect settings edge = .ok connector) :
    diagram.KeepsInside connector := by
  obtain ⟨source, sourceIn, target, targetIn, start, finish, sourceId, targetId,
    isStart, isFinish, rfl⟩ := exists_of_connect connects
  obtain ⟨root, rootIn, ownsAll⟩ := rooted
  obtain ⟨owner, ownerIn, isLowest⟩ := exists_lowestOwner distinct rootIn
    (ownsAll source sourceIn) (ownsAll target targetIn)
  refine ⟨source, sourceIn, target, targetIn, owner, ownerIn, sourceId, targetId,
    isLowest, fun point passes => ?_⟩
  have startIn := encloses.anchors source sourceIn _ isStart
  have finishIn := encloses.anchors target targetIn _ isFinish
  have lane := LayoutSettings.across_descent (lanes.suited edge edgeIn) startIn
    accepted.clearance_pos accepted.branchGap_pos
    (fun isExit => (lanes.loop source sourceIn _ isStart (.inr isExit)).1)
    (fun isFalse => lanes.decision source sourceIn _ isStart isFalse)
  have waypoints := LayoutSettings.waypoints_inside
    (encloses.owned isLowest.ownsFirst) (encloses.owned isLowest.ownsSecond)
    startIn finishIn lane accepted.clearance_pos accepted.spacing_pos
    (fun isBack => lanes.loop target targetIn _ isFinish (.inl isBack))
  have held : owner.bounds.Holds point := passes.held waypoints
  exact ⟨held, (encloses.nodes owner ownerIn).holds held⟩

end Diagram

/-! ## Every tree -/

/-- Everything is drawn inside its owner. -/
theorem Tree.layout_encloses {settings : LayoutSettings Rat} {tree : Tree Rat}
    (usable : settings.validate = .ok ())
    (valid : tree.validate settings.maxDepth = .ok ()) :
    ∃ diagram routed, tree.layout settings = .ok diagram ∧
      diagram.route settings = .ok routed ∧ routed.toDiagram = diagram ∧
      routed.connectors.map Connector.toEdge = diagram.edges ∧
      diagram.Encloses settings ∧
      ∀ connector ∈ routed.connectors, diagram.KeepsInside connector := by
  have accepted := LayoutSettings.validate_accepted usable
  obtain ⟨located, stores⟩ := exists_stores valid
  have distinct := stores.ids_nodup
  have outer : located.written.Outer := stores.outer.map Prod.snd
  obtain ⟨routed, isRouted, sameDiagram, areEdges, -⟩ :=
    Program.exists_route accepted outer distinct rfl
  have encloses := (Diagram.encloses_unmarked accepted distinct).markReachable
    (located.written.map Label.id).flow.2
  refine ⟨_, routed, layout_exact accepted valid stores, isRouted, sameDiagram,
    areEdges, encloses, fun connector connectorIn => ?_⟩
  obtain ⟨connectors, areConnectors, routed_eq⟩ := bind_eq_ok.mp isRouted
  cases routed_eq
  obtain ⟨edge, edgeIn, connects⟩ :=
    exists_of_mapM_eq_ok areConnectors connectorIn
  refine encloses.keepsInside accepted
    ((Diagram.hasLanes_unmarked accepted distinct).markReachable _)
    (Diagram.rooted_unmarked settings located.written).markReachable ?_ edgeIn
    connects
  rwa [Diagram.ids_markReachable, Program.ids_nodes]

/-- A function with a loop over a decision that has no alternative. -/
def enclosedLoop : Program NodeId :=
  .block "all" [
    .container "function" .function (.block "body" [
      .loop "loop" .whileHolds
        (.decision "if" (.statement "then" .expression) none),
      .selection "match" [("one", .result "early"), ("two", .block "late" [])]])]

theorem Tree.layout_encloses_enclosedLoop :
    (LayoutSettings.standard : LayoutSettings Rat).validate = .ok () ∧
      enclosedLoop.plainTree.validate
        (LayoutSettings.standard : LayoutSettings Rat).maxDepth = .ok () ∧
      ∃ diagram routed,
        enclosedLoop.plainTree.layout .standard = .ok diagram ∧
        diagram.route .standard = .ok routed ∧
        routed.toDiagram = diagram ∧
        routed.connectors.map Connector.toEdge = diagram.edges ∧
        diagram.Encloses .standard ∧
        ∀ connector ∈ routed.connectors, diagram.KeepsInside connector := by
  have usable : (LayoutSettings.standard : LayoutSettings Rat).validate =
      .ok () := by
    decide +kernel
  have valid : enclosedLoop.plainTree.validate
      (LayoutSettings.standard : LayoutSettings Rat).maxDepth = .ok () := by
    cbv
  exact ⟨usable, valid, layout_encloses usable valid⟩

end Flowchart
