import Flowchart.Proofs.Flow.Degrees
import Flowchart.Proofs.Flow.Frames

/-!
# Structured flow

The edges of a program form a structured graph: no anchor has two edges that leave
it, edges come together at merges only, one from each column, an arm is entered from
its selection alone, and no edge crosses the frame of a function or a service.
-/

namespace Flowchart

namespace Program

/-- A list of edges between the nodes of a program is structured. -/
structure Structured (program : Program NodeId) (edges : List Edge) : Prop where
  ends : ∀ edge ∈ edges,
    program.HasAnchor edge.source ∧ program.HasAnchor edge.target
  result : ∀ id, .result id ∈ program.preorder →
    ∀ edge ∈ edges, edge.source.node ≠ id
  sources : (edges.map Edge.source).Nodup
  /-- The entry of a construct, the head of a loop and the end of a function. -/
  single : ∀ place : Endpoint, place.anchor ≠ .merge →
    edges.countP (fun edge => edge.target = place) ≤ 1
  decision : ∀ id consequent alternative,
    .decision id consequent alternative ∈ program.preorder →
    edges.countP (fun edge => edge.target = ⟨id, .merge⟩) ≤ 2
  selection : ∀ id arms, .selection id arms ∈ program.preorder →
    edges.countP (fun edge => edge.target = ⟨id, .merge⟩) ≤ arms.length ∧
      ∀ arm ∈ arms, edges.countP (fun edge =>
        edge.target = ⟨id, .merge⟩ ∧ edge.source.node ∈ arm.2.labels) ≤ 1
  arm : ∀ id arms, .selection id arms ∈ program.preorder →
    ∀ index arm, arms[index]? = some arm → ∀ edge ∈ edges,
      edge.target = arm.2.entry ∨ edge.target = ⟨arm.2.label, .entry⟩ →
      edge.source = ⟨id, .arm index⟩
  frame : ∀ edge ∈ edges, ∀ above source other target,
    program.Stands above source → source.label = edge.source.node →
    program.Stands other target → target.label = edge.target.node →
    source.frame above = target.frame other

/-- Only the two ends of each edge matter, and not the order of the edges. -/
theorem Structured.of_perm {program : Program NodeId} {edges others : List Edge}
    (structured : program.Structured edges)
    (perm : (others.map fun edge => (edge.source, edge.target)).Perm
      (edges.map fun edge => (edge.source, edge.target))) :
    program.Structured others := by
  have original : ∀ edge ∈ others, ∃ first ∈ edges,
      first.source = edge.source ∧ first.target = edge.target := by
    intro edge edgeIn
    obtain ⟨first, firstIn, same⟩ :=
      List.mem_map.mp (perm.mem_iff.mp (List.mem_map_of_mem edgeIn))
    exact ⟨first, firstIn, congrArg Prod.fst same, congrArg Prod.snd same⟩
  have counted : ∀ holds : Endpoint × Endpoint → Bool,
      others.countP (fun edge => holds (edge.source, edge.target)) =
        edges.countP fun edge => holds (edge.source, edge.target) := by
    intro holds
    have same := perm.countP_eq holds
    rwa [List.countP_map, List.countP_map] at same
  have targets : ∀ place, others.countP (fun edge => edge.target = place) =
      edges.countP fun edge => edge.target = place :=
    fun place => counted fun ends => ends.2 = place
  exact {
    ends := fun edge edgeIn => by
      obtain ⟨first, firstIn, isSource, isTarget⟩ := original edge edgeIn
      rw [← isSource, ← isTarget]
      exact structured.ends first firstIn
    result := fun id resultIn edge edgeIn => by
      obtain ⟨first, firstIn, isSource, -⟩ := original edge edgeIn
      rw [← isSource]
      exact structured.result id resultIn first firstIn
    sources := by
      have sources := perm.map Prod.fst
      rw [List.map_map, List.map_map] at sources
      exact sources.nodup_iff.mpr structured.sources
    single := fun place notMerge => targets place ▸ structured.single place notMerge
    decision := fun id consequent alternative decisionIn =>
      targets _ ▸ structured.decision id consequent alternative decisionIn
    selection := fun id arms selectionIn => by
      obtain ⟨total, each⟩ := structured.selection id arms selectionIn
      exact ⟨targets _ ▸ total, fun arm armIn => (counted fun ends =>
        ends.2 = ⟨id, .merge⟩ ∧ ends.1.node ∈ arm.2.labels) ▸ each arm armIn⟩
    arm := fun id arms selectionIn index arm isArm edge edgeIn => by
      obtain ⟨first, firstIn, isSource, isTarget⟩ := original edge edgeIn
      rw [← isSource, ← isTarget]
      exact structured.arm id arms selectionIn index arm isArm first firstIn
    frame := fun edge edgeIn above source other target => by
      obtain ⟨first, firstIn, isSource, isTarget⟩ := original edge edgeIn
      rw [← isSource, ← isTarget]
      exact structured.frame first firstIn above source other target }

/-! ## The structure of the control flow -/

theorem eq_of_countP_le_one {α : Type} {holds : α → Bool} {items : List α}
    (atMost : items.countP holds ≤ 1) {first second : α} (firstIn : first ∈ items)
    (firstHolds : holds first = true) (secondIn : second ∈ items)
    (secondHolds : holds second = true) : first = second := by
  have inFirst := List.mem_filter.mpr ⟨firstIn, firstHolds⟩
  have inSecond := List.mem_filter.mpr ⟨secondIn, secondHolds⟩
  rw [List.countP_eq_length_filter] at atMost
  match items.filter holds, atMost, inFirst, inSecond with
  | [only], _, inFirst, inSecond =>
      exact (List.mem_singleton.mp inFirst).trans (List.mem_singleton.mp inSecond).symm

section

variable {program : Program NodeId}

/-- Every anchor but a merge has room for one edge at most. -/
theorem room_le_one {anchor : Anchor} (notMerge : anchor ≠ .merge) :
    program.room anchor ≤ 1 := by
  unfold room
  split <;> first | exact absurd rfl notMerge | decide

theorem room_of_filled (isFilled : program.isFilledBlock = true) (anchor : Anchor) :
    program.room anchor = 0 := by
  cases program with
  | block label members =>
      cases members with
      | nil => cases isFilled
      | cons first later => rfl
  | _ => cases isFilled

/-- The edge into an arm. -/
theorem exists_mem_controlFlow {id : NodeId} {arms : List (String × Program NodeId)}
    (selectionIn : .selection id arms ∈ program.preorder) {index : Nat}
    {arm : String × Program NodeId} (isArm : arms[index]? = some arm) :
    ∃ edge ∈ program.controlFlow, edge.source = ⟨id, .arm index⟩ ∧
      edge.target = arm.2.entry := by
  have continued := selectionIn
  rw [← map_fst_continuations program false none] at continued
  obtain ⟨⟨node, follow⟩, continuedIn, isNode⟩ := List.mem_map.mp continued
  obtain ⟨inside, isThere⟩ := List.getElem?_eq_some_iff.mp isArm
  refine ⟨⟨⟨id, .arm index⟩, arm.2.entry, .branchArm index, some arm.1, true⟩,
    List.mem_flatMap.mpr ⟨(node, follow), continuedIn, ?_⟩, rfl, rfl⟩
  rw [show node = .selection id arms from isNode, nodeEdges_eq rfl, ← isThere]
  exact List.mem_append_right _ (List.mem_mapIdx.mpr ⟨index, inside, rfl⟩)

variable (distinct : program.labels.Nodup)

include distinct

theorem arrivals_controlFlow_le (place : Endpoint) {bound : Nat}
    (each : ∀ node ∈ program.preorder, node.label = place.node →
      node.room place.anchor ≤ bound) :
    program.controlFlow.countP (fun edge => edge.target = place) ≤ bound :=
  arrivals_le place distinct each false none

theorem eq_of_label_eq {first second : Program NodeId}
    (firstIn : first ∈ program.preorder) (secondIn : second ∈ program.preorder)
    (same : first.label = second.label) : first = second :=
  List.inj_on_of_nodup_map distinct firstIn secondIn same

/-- An edge that comes to the body of an arm is the one from the selection. -/
theorem source_of_arm {id : NodeId} {arms : List (String × Program NodeId)}
    (selectionIn : .selection id arms ∈ program.preorder) {index : Nat}
    {arm : String × Program NodeId} (isArm : arms[index]? = some arm) {edge : Edge}
    (edgeIn : edge ∈ program.controlFlow) (isTarget : edge.target = arm.2.entry ∨
      edge.target = ⟨arm.2.label, .entry⟩) : edge.source = ⟨id, .arm index⟩ := by
  have atEntry : edge.target = arm.2.entry := by
    rcases isTarget with atEntry | atNode
    · exact atEntry
    · cases hasNode : arm.2.isFilledBlock with
      | false => rw [atNode, entry_of_hasNode hasNode]
      | true =>
          have armIn : arm.2 ∈ program.preorder :=
            mem_preorder_trans selectionIn (child_mem_preorder
              (List.mem_map_of_mem (List.mem_of_getElem? isArm)))
          have noEdge : program.controlFlow.countP
              (fun edge => edge.target = ⟨arm.2.label, .entry⟩) ≤ 0 :=
            arrivals_controlFlow_le distinct _ fun node nodeIn isNode => by
              rw [eq_of_label_eq distinct nodeIn armIn isNode, room_of_filled hasNode]
          exact absurd (decide_eq_true atNode)
            (List.countP_eq_zero.mp (Nat.le_zero.mp noEdge) edge edgeIn)
  obtain ⟨entered, enteredIn, isSource, sameTarget⟩ :=
    exists_mem_controlFlow selectionIn isArm
  have single := arrivals_controlFlow_le distinct arm.2.entry
    fun node _ _ => room_le_one (by simp [entry])
  rw [eq_of_countP_le_one single edgeIn (decide_eq_true atEntry) enteredIn
    (decide_eq_true sameTarget), isSource]

theorem structured_controlFlow (outer : program.Outer) :
    program.Structured program.controlFlow where
  ends := by
    intro edge edgeIn
    exact (program.wire_within false).edges edge
      ((outer.flowsInside false).mem_iff.mpr edgeIn)
  result := by
    intro id resultIn edge edgeIn isSource
    obtain ⟨node, nodeIn, after, isNode, atNode⟩ := exists_nodeEdges edgeIn
    obtain rfl : node = .result id :=
      eq_of_label_eq distinct nodeIn resultIn (isNode.trans isSource)
    cases atNode
  sources := sources_nodup distinct false none
  single := by
    intro place notMerge
    exact arrivals_controlFlow_le distinct place fun node _ _ => room_le_one notMerge
  decision := by
    intro id consequent alternative decisionIn
    refine arrivals_controlFlow_le distinct _ fun node nodeIn isNode => ?_
    rw [eq_of_label_eq distinct nodeIn decisionIn isNode]
    exact le_refl 2
  selection := by
    intro id arms selectionIn
    constructor
    · refine arrivals_controlFlow_le distinct _ fun node nodeIn isNode => ?_
      rw [eq_of_label_eq distinct nodeIn selectionIn isNode]
      exact le_refl _
    · exact fun arm armIn => arrivals_of_arm distinct selectionIn armIn false none
  arm := by
    intro id arms selectionIn index arm isArm edge edgeIn isTarget
    exact source_of_arm distinct selectionIn isArm edgeIn isTarget
  frame := by
    intro edge edgeIn above source other target sourceStands isSource targetStands
      isTarget
    exact (arises_of_mem_controlFlow edgeIn).frame_eq outer distinct sourceStands
      isSource targetStands isTarget

end

end Program

variable {α : Type} [Scalar α]

/-- The edges that a tree which passes validation is wired with are structured, and
so are those of its diagram. -/
theorem Tree.structured_edges {settings : LayoutSettings α} {tree : Tree α}
    (accepted : tree.validate settings.maxDepth = .ok ()) :
    ∃ outline, tree.outline settings.maxDepth = .ok outline ∧
      outline.Structured outline.flow.1 ∧
      ∀ diagram, tree.layout settings = .ok diagram →
        outline.Structured diagram.edges := by
  obtain ⟨outline, laidOut⟩ := Tree.exists_laidOut accepted
  have wired : outline.flow.1.Perm outline.controlFlow :=
    laidOut.outer.flowsInside false
  have structured : outline.Structured outline.flow.1 :=
    (Program.structured_controlFlow laidOut.distinct laidOut.outer).of_perm
      (wired.map _)
  refine ⟨outline, laidOut.isOutline, structured, fun diagram isDiagram => ?_⟩
  obtain ⟨mark, marked⟩ :=
    Tree.edges_of_layout laidOut.isOutline accepted isDiagram
  refine structured.of_perm (.of_eq ?_)
  rw [marked, List.map_map]
  rfl

/-- A service with a function and a statement of its own. The function selects
between an arm that returns and one that loops. -/
def selectingService : Program NodeId :=
  .container "service" .service
    (.block "members"
      [.container "function" .function
        (.block "body"
          [.selection "match"
              [("Some(x)", .result "found"),
                ("None", .block "retry"
                  [.loop "while" .whileHolds
                    (.decision "if" (.statement "step" .compoundAssignment) none)])],
            .statement "after" .expression]),
      .statement "alone" .expression])

theorem structured_edges_selectingService :
    selectingService.plainTree.validate
        (LayoutSettings.standard : LayoutSettings Rat).maxDepth = .ok () ∧
      ∃ outline, selectingService.plainTree.outline 64 = .ok outline ∧
        outline.Structured outline.flow.1 := by
  have accepted : selectingService.plainTree.validate
      (LayoutSettings.standard : LayoutSettings Rat).maxDepth = .ok () := by
    cbv
  obtain ⟨outline, isOutline, structured, -⟩ := Tree.structured_edges accepted
  exact ⟨accepted, outline, isOutline, structured⟩

end Flowchart
