import Flowchart.Proofs.Layout.Moved
import Flowchart.Proofs.Route.Owned
import Flowchart.Proofs.Route.Shape

/-!
# Subtrees move as a whole

In exact arithmetic a subtree looks the same wherever it stands: what is elsewhere
in the tree can only move it.  The nodes of the subtree, and the connectors between
two of them, are all moved by the same way.
-/

namespace Flowchart

open Scalar

/-! ## Paths that are moved -/

theorem Scalar.near_add (first second shift : Rat) :
    near (first + shift) (second + shift) = near first second := by
  rw [Bool.eq_iff_iff, near_iff, near_iff, add_sub_add_right_eq_sub,
    add_sub_add_right_eq_sub]

theorem Point.near_add (first second shift : Point Rat) :
    (first + shift).near (second + shift) = first.near second := by
  simp only [Point.near, Point.add_x, Point.add_y, Scalar.near_add]

namespace Polyline

/-- The path with all its corners moved. -/
def translate (line : Polyline Rat) (shift : Point Rat) : Polyline Rat :=
  ⟨line.points.map (· + shift)⟩

theorem collinear_add (first middle last shift : Point Rat) :
    collinear (first + shift) (middle + shift) (last + shift) =
      collinear first middle last := by
  simp only [collinear, Point.add_x, Point.add_y, Scalar.near_add]

/-- The same corners are taken back wherever a chain lies. -/
theorem extend_add (shift : Point Rat) (chain : List (Point Rat))
    (point : Point Rat) :
    extend (chain.map (· + shift)) (point + shift) =
      (extend chain point).map (· + shift) := by
  fun_induction extend chain point with
  | case1 point => rfl
  | case2 point last close => simp [extend, Point.near_add, close]
  | case3 point last far => simp [extend, Point.near_add, far]
  | case4 point last previous earlier close =>
      simp [extend, Point.near_add, close]
  | case5 point last previous earlier far flat ih =>
      simpa [extend, Point.near_add, collinear_add, far, flat] using ih
  | case6 point last previous earlier far bent =>
      simp [extend, Point.near_add, collinear_add, far, bent]

theorem ofPoints_add (shift : Point Rat) (points : List (Point Rat)) :
    ofPoints (points.map (· + shift)) = (ofPoints points).translate shift := by
  have chained : ∀ chain : List (Point Rat),
      (points.map (· + shift)).foldl extend (chain.map (· + shift)) =
        (points.foldl extend chain).map (· + shift) := by
    induction points with
    | nil => exact fun _ => rfl
    | cons point rest ih =>
        intro chain
        rw [List.map_cons, List.foldl_cons, List.foldl_cons, extend_add, ih]
  rw [translate, ofPoints, ofPoints, List.map_reverse]
  exact congrArg (fun chain => Polyline.mk chain.reverse) (chained [])

end Polyline

namespace LayoutSettings

variable {settings : LayoutSettings Rat} {shift start finish : Point Rat}
  {source target movedSource movedTarget : DiagramNode Rat} {edge movedEdge : Edge}

theorem descent_add (isMoved : source.IsMoved shift movedSource) :
    settings.descent movedSource edge (start + shift) =
      settings.descent source edge start + shift.x := by
  have right : movedSource.bounds.maxX = source.bounds.maxX + shift.x := by
    rw [isMoved.bounds]
    rfl
  unfold descent
  split
  · rw [right]
    ring
  · rw [right]
    ring
  · rfl

theorem waypoints_add (sourceMoved : source.IsMoved shift movedSource)
    (targetMoved : target.IsMoved shift movedTarget) :
    settings.waypoints movedSource movedTarget edge (start + shift)
        (finish + shift) =
      (settings.waypoints source target edge start finish).map (· + shift) := by
  have lane : settings.descent movedSource edge (start + shift) =
      settings.descent source edge start + shift.x :=
    descent_add sourceMoved
  have sourceEnd : movedSource.bounds.maxY = source.bounds.maxY + shift.y := by
    rw [sourceMoved.bounds]
    rfl
  have targetEnd : movedTarget.bounds.maxY = target.bounds.maxY + shift.y := by
    rw [targetMoved.bounds]
    rfl
  have targetLeft : movedTarget.bounds.minX = target.bounds.minX + shift.x := by
    rw [targetMoved.bounds]
    rfl
  have turn : ∀ first second : Rat,
      half (first + shift.y + (second + shift.y)) =
        half (first + second) + shift.y := by
    intro first second
    rw [half_exact, half_exact]
    ring
  have add_eq : ∀ x y : Rat,
      (⟨x, y⟩ : Point Rat) + shift = ⟨x + shift.x, y + shift.y⟩ :=
    fun _ _ => rfl
  unfold waypoints
  rw [lane]
  split
  · simp only [List.map_cons, List.map_nil, add_eq, targetEnd, targetLeft,
      add_sub_right_comm, add_right_comm]
  · simp only [List.map_cons, List.map_nil, add_eq]
  · simp only [List.map_cons, List.map_nil, add_eq]
  · simp only [List.map_cons, List.map_nil, add_eq]
  · simp only [List.map_cons, List.map_nil, add_eq, sourceEnd, turn]
    split <;> rfl

end LayoutSettings

namespace Diagram

variable {settings : LayoutSettings Rat} {diagram other : Diagram Rat}
  {shift : Point Rat}

theorem requireAnchor_add {node moved : DiagramNode Rat}
    (isMoved : node.IsMoved shift moved) (anchor : Anchor) :
    requireAnchor moved anchor =
      (requireAnchor node anchor).map fun point => point + shift := by
  rw [requireAnchor, requireAnchor, isMoved.anchor?, isMoved.id]
  cases node.anchor? anchor <;> rfl

/-- The path of an edge between two nodes. -/
def pathBetween (settings : LayoutSettings Rat) (edge : Edge)
    (source target : DiagramNode Rat) : Except Fault (Polyline Rat) := do
  let start ← requireAnchor source edge.source.anchor
  let finish ← requireAnchor target edge.target.anchor
  return .ofPoints (settings.waypoints source target edge start finish)

theorem pathOf_eq_pathBetween {edge : Edge} {source target : DiagramNode Rat}
    (isSource : diagram.node? edge.source.node = some source)
    (isTarget : diagram.node? edge.target.node = some target) :
    diagram.pathOf settings edge = pathBetween settings edge source target := by
  unfold pathOf requireNode
  rw [isSource, isTarget]
  rfl

/-- Only where an edge is attached and its kind count. -/
theorem pathBetween_congr {edge counterpart : Edge}
    (sameSource : counterpart.source = edge.source)
    (sameTarget : counterpart.target = edge.target)
    (sameKind : counterpart.kind = edge.kind) (source target : DiagramNode Rat) :
    pathBetween settings counterpart source target =
      pathBetween settings edge source target := by
  unfold pathBetween LayoutSettings.waypoints LayoutSettings.descent
  rw [sameSource, sameTarget, sameKind]

/-- A path between nodes that are moved is moved with them. -/
theorem pathBetween_add {edge : Edge}
    {source target movedSource movedTarget : DiagramNode Rat}
    (sourceMoved : source.IsMoved shift movedSource)
    (targetMoved : target.IsMoved shift movedTarget) :
    pathBetween settings edge movedSource movedTarget =
      (pathBetween settings edge source target).map fun path =>
        path.translate shift := by
  unfold pathBetween
  rw [requireAnchor_add sourceMoved, requireAnchor_add targetMoved]
  cases requireAnchor source edge.source.anchor with
  | error fault => rfl
  | ok start =>
      cases requireAnchor target edge.target.anchor with
      | error fault => rfl
      | ok finish =>
          refine congrArg Except.ok ?_
          rw [LayoutSettings.waypoints_add sourceMoved targetMoved,
            Polyline.ofPoints_add]

/-- A connector takes the path of its edge. -/
theorem pathOf_of_connect {edge : Edge} {connector : Connector Rat}
    (connects : diagram.connect settings edge = .ok connector) :
    diagram.pathOf settings connector.toEdge = .ok connector.path := by
  obtain ⟨path, isPath, checked⟩ := bind_eq_ok.mp connects
  obtain ⟨-, -, isConnector⟩ := bind_eq_ok.mp checked
  cases isConnector
  exact isPath

theorem pathOf_of_route {routed : RoutedDiagram Rat}
    (isRouted : diagram.route settings = .ok routed) {connector : Connector Rat}
    (connectorIn : connector ∈ routed.connectors) :
    diagram.pathOf settings connector.toEdge = .ok connector.path := by
  obtain ⟨connectors, areConnectors, isDiagram⟩ := bind_eq_ok.mp isRouted
  cases isDiagram
  obtain ⟨edge, -, connects⟩ := exists_of_mapM_eq_ok areConnectors connectorIn
  exact pathOf_of_connect connects

end Diagram

/-- Two diagrams show some identities alike, the one elsewhere than the other: the
nodes and the paths between them have all been moved the same way. -/
structure RoutedDiagram.Moves (shift : Point Rat) (ids : Set NodeId)
    (first second : RoutedDiagram Rat) : Prop where
  nodes : ∀ id ∈ ids, ∃ node moved, first.node? id = some node ∧
    second.node? id = some moved ∧ node.IsMoved shift moved
  connectors : ∀ connector ∈ first.connectors,
    connector.source.node ∈ ids → connector.target.node ∈ ids →
    ∀ counterpart ∈ second.connectors,
      counterpart.source = connector.source →
      counterpart.target = connector.target →
      counterpart.kind = connector.kind →
      counterpart.path = connector.path.translate shift

/-- Connectors go where their nodes go. -/
theorem Diagram.moves_of_nodes {settings : LayoutSettings Rat}
    {diagram other : Diagram Rat} {routed otherRouted : RoutedDiagram Rat}
    {shift : Point Rat} {ids : Set NodeId}
    (isRouted : diagram.route settings = .ok routed)
    (otherIsRouted : other.route settings = .ok otherRouted)
    (sameDiagram : routed.toDiagram = diagram)
    (otherSameDiagram : otherRouted.toDiagram = other)
    (nodes : ∀ id ∈ ids, ∃ node moved, diagram.node? id = some node ∧
      other.node? id = some moved ∧ node.IsMoved shift moved) :
    routed.Moves shift ids otherRouted where
  nodes := by
    rw [sameDiagram, otherSameDiagram]
    exact nodes
  connectors := by
    intro connector connectorIn sourceIn targetIn counterpart counterpartIn
      sameSource sameTarget sameKind
    obtain ⟨source, movedSource, isSource, isMovedSource, sourceMoved⟩ :=
      nodes _ sourceIn
    obtain ⟨target, movedTarget, isTarget, isMovedTarget, targetMoved⟩ :=
      nodes _ targetIn
    have isPath := pathOf_of_route isRouted connectorIn
    have isCounterpath := pathOf_of_route otherIsRouted counterpartIn
    rw [pathOf_eq_pathBetween isSource isTarget] at isPath
    rw [← sameSource] at isMovedSource
    rw [← sameTarget] at isMovedTarget
    rw [pathOf_eq_pathBetween isMovedSource isMovedTarget,
      pathBetween_congr sameSource sameTarget sameKind,
      pathBetween_add sourceMoved targetMoved, isPath] at isCounterpath
    exact (Except.ok.inj isCounterpath).symm

/-! ## Trees -/

namespace Tree

/-- The identities of a node and of all that is below it. -/
def idsFrom {α : Type} (tree : Tree α) (top : Handle) : Set NodeId :=
  {id | ∃ handle node, (tree.setRoot top).HasNode handle node ∧ node.id = id}

section

variable {α : Type} {tree : Tree α} {program node : Located α}

theorem Bears.idsFrom_eq (bears : tree.Bears program)
    (nodeIn : node ∈ program.preorder) :
    tree.idsFrom node.handle = {id | id ∈ node.written.ids} := by
  have inner := bears.setRoot nodeIn
  ext id
  rw [idsFrom, Set.mem_ofPred_eq, Set.mem_ofPred_eq, Program.ids_written,
    Program.identities, List.mem_map]
  constructor
  · rintro ⟨handle, stored, ⟨reached, isStored⟩, rfl⟩
    obtain ⟨below, belowIn, rfl⟩ := inner.reaches_iff.mp reached
    rw [inner.holds below belowIn] at isStored
    obtain rfl := Option.some.inj isStored
    exact ⟨below, belowIn, rfl⟩
  · rintro ⟨below, belowIn, rfl⟩
    exact ⟨below.handle, below.node, inner.hasNode belowIn, rfl⟩

end

variable {settings : LayoutSettings Rat}

/-- Whatever else differs in two trees, a subtree that has the same shape in both
is only moved from the one diagram to the other, with all that is drawn of it. -/
theorem layout_rigid {first second : Tree Rat} {top otherTop : Handle}
    (usable : settings.validate = .ok ())
    (firstValid : first.validate settings.maxDepth = .ok ())
    (secondValid : second.validate settings.maxDepth = .ok ())
    (reached : first.Reaches top) (otherReached : second.Reaches otherTop)
    (same : (first.setRoot top).SameShape (second.setRoot otherTop)) :
    ∃ diagram other routed otherRouted,
      first.layout settings = .ok diagram ∧
      second.layout settings = .ok other ∧
      diagram.route settings = .ok routed ∧
      other.route settings = .ok otherRouted ∧
      routed.toDiagram = diagram ∧ otherRouted.toDiagram = other ∧
      ∃ shift, routed.Moves shift (first.idsFrom top) otherRouted := by
  have accepted := LayoutSettings.validate_accepted usable
  obtain ⟨program, stores⟩ := exists_stores firstValid
  obtain ⟨otherProgram, otherStores⟩ := exists_stores secondValid
  have outer : program.written.Outer := stores.outer.map Prod.snd
  have otherOuter : otherProgram.written.Outer := otherStores.outer.map Prod.snd
  obtain ⟨inner, innerIn, rfl⟩ := stores.reaches_iff.mp reached
  obtain ⟨otherInner, otherIn, rfl⟩ := otherStores.reaches_iff.mp otherReached
  have sameBlank : inner.written.blank Label.blank =
      otherInner.written.blank Label.blank := by
    rw [Program.written, Program.written, Program.blank_map, Program.blank_map]
    exact (stores.setRoot innerIn).blank_eq same (otherStores.setRoot otherIn)
  have writtenIn : ∀ {node program : Located Rat}, node ∈ program.preorder →
      node.written ∈ program.written.preorder := by
    intro node program nodeIn
    rw [Program.written, Program.preorder_map]
    exact List.mem_map_of_mem nodeIn
  obtain ⟨shift, moved⟩ := Program.exists_moved settings
    stores.ids_nodup (writtenIn innerIn) otherStores.ids_nodup (writtenIn otherIn)
    sameBlank (program.written.map Label.id).flow.2
    (otherProgram.written.map Label.id).flow.2
  obtain ⟨routed, isRouted, sameDiagram, -⟩ :=
    Program.exists_route accepted outer stores.ids_nodup rfl
  obtain ⟨otherRouted, otherIsRouted, otherSameDiagram, -⟩ :=
    Program.exists_route accepted otherOuter otherStores.ids_nodup rfl
  refine ⟨_, _, routed, otherRouted, layout_exact accepted firstValid stores,
    layout_exact accepted secondValid otherStores, isRouted, otherIsRouted,
    sameDiagram, otherSameDiagram, shift, ?_⟩
  rw [stores.idsFrom_eq innerIn]
  exact Diagram.moves_of_nodes isRouted otherIsRouted sameDiagram otherSameDiagram
    moved

/-- A step or nothing, as a condition has it. -/
def choosing : Tree Rat :=
  ⟨#[⟨⟨"all", "", none⟩, .block [1]⟩,
    ⟨⟨"if", "ready?", none⟩, .decision (some 2) (some 3)⟩,
    ⟨⟨"go", "go on", some ⟨200, 60⟩⟩, .statement .expression⟩,
    ⟨⟨"wait", "", none⟩, .block []⟩], some 0⟩

/-- The same choice after a first step, and stored the other way round. -/
def choosingLate : Tree Rat :=
  ⟨#[⟨⟨"wait", "", none⟩, .block []⟩,
    ⟨⟨"go", "go on", some ⟨200, 60⟩⟩, .statement .expression⟩,
    ⟨⟨"if", "ready?", none⟩, .decision (some 1) (some 0)⟩,
    ⟨⟨"first", "get ready", none⟩, .statement .expression⟩,
    ⟨⟨"all", "", none⟩, .block [3, 2]⟩], some 4⟩

theorem choosing_sameShape :
    (choosing.setRoot 1).SameShape (choosingLate.setRoot 2) := by
  have valid : (choosing.setRoot 1).validate 8 = .ok () := by cbv
  have otherValid : (choosingLate.setRoot 2).validate 8 = .ok () := by cbv
  obtain ⟨program, stores⟩ := exists_stores valid
  obtain ⟨otherProgram, otherStores⟩ := exists_stores otherValid
  have walk : (choosing.setRoot 1).walk.map Prod.fst = [1, 2, 3] := by cbv
  have otherWalk : (choosingLate.setRoot 2).walk.map Prod.fst = [2, 1, 0] := by
    cbv
  refine ⟨fun handle => 3 - handle,
    .of_walk stores.toBears otherStores.toBears ?_ rfl ?_⟩
  · rw [walk, otherWalk]
    rfl
  · rw [walk]
    intro handle handleIn node isNode
    fin_cases handleIn
    all_goals
      obtain rfl := Option.some.inj isNode
      exact ⟨_, rfl, rfl, rfl, rfl, rfl⟩

theorem layout_rigid_choosingLate :
    (LayoutSettings.standard : LayoutSettings Rat).validate = .ok () ∧
      choosing.validate
        (LayoutSettings.standard : LayoutSettings Rat).maxDepth = .ok () ∧
      choosingLate.validate
        (LayoutSettings.standard : LayoutSettings Rat).maxDepth = .ok () ∧
      choosing.Reaches 1 ∧ choosingLate.Reaches 2 ∧
      (choosing.setRoot 1).SameShape (choosingLate.setRoot 2) ∧
      ∃ diagram other routed otherRouted,
        choosing.layout .standard = .ok diagram ∧
        choosingLate.layout .standard = .ok other ∧
        diagram.route .standard = .ok routed ∧
        other.route .standard = .ok otherRouted ∧
        routed.toDiagram = diagram ∧ otherRouted.toDiagram = other ∧
        ∃ shift, routed.Moves shift (choosing.idsFrom 1) otherRouted := by
  have usable : (LayoutSettings.standard : LayoutSettings Rat).validate =
      .ok () := by
    cbv
  have valid : choosing.validate
      (LayoutSettings.standard : LayoutSettings Rat).maxDepth = .ok () := by
    cbv
  have otherValid : choosingLate.validate
      (LayoutSettings.standard : LayoutSettings Rat).maxDepth = .ok () := by
    cbv
  have reached : choosing.Reaches 1 :=
    ⟨_, @WayTo.child _ choosing _ (0, .member 0) 1 (.root rfl)
      List.mem_cons_self⟩
  have otherReached : choosingLate.Reaches 2 :=
    ⟨_, @WayTo.child _ choosingLate _ (4, .member 1) 2 (.root rfl)
      (List.mem_cons_of_mem _ List.mem_cons_self)⟩
  exact ⟨usable, valid, otherValid, reached, otherReached, choosing_sameShape,
    layout_rigid usable valid otherValid reached otherReached choosing_sameShape⟩

end Tree

end Flowchart
