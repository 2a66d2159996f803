import Flowchart.Proofs.Flow.Reachable

/-!
# What marking a diagram comes to

The marks of a diagram are the least that there can be: a node is marked if edges
lead to it from a start, or if it is a block without a figure and a member of it is
marked.  Which search finds the nodes that edges lead to does not matter, nor that
it is begun again at every start.
-/

namespace Flowchart

namespace Diagram

/-! ## Ways along edges -/

/-- An edge leads from one node to another. -/
def Leads (edges : List Edge) (source target : NodeId) : Prop :=
  ∃ edge ∈ edges, edge.source.node = source ∧ edge.target.node = target

/-- A way along edges leads to a node from one of the starts. -/
def FlowsFrom (edges : List Edge) (starts : List NodeId) (id : NodeId) : Prop :=
  ∃ start ∈ starts, Relation.ReflTransGen (Leads edges) start id

variable {edges : List Edge} {nodes starts : List NodeId} {id : NodeId}

theorem FlowsFrom.closed : Closed edges (FlowsFrom edges starts) := by
  rintro edge edgeIn ⟨start, isStart, way⟩
  exact ⟨start, isStart, way.tail ⟨edge, edgeIn, rfl, rfl⟩⟩

theorem FlowsFrom.start {start : NodeId} (isStart : start ∈ starts) :
    FlowsFrom edges starts start :=
  ⟨start, isStart, .refl⟩

/-- Following edges finds the nodes that a way leads to. -/
theorem mem_follow_iff (endIn : ∀ edge ∈ edges, edge.target.node ∈ nodes)
    (startIn : ∀ start ∈ starts, start ∈ nodes) :
    id ∈ follow edges nodes starts ↔ FlowsFrom edges starts id := by
  constructor
  · exact follow_subset FlowsFrom.closed fun start isStart =>
      FlowsFrom.start isStart
  · rintro ⟨start, isStart, way⟩
    induction way with
    | refl => exact start_mem_follow isStart (startIn start isStart)
    | tail _ leads ih =>
        obtain ⟨edge, edgeIn, rfl, rfl⟩ := leads
        exact follow_closed endIn edge edgeIn ih

/-! ## Any search -/

/-- A search goes from one node over the nodes that were not visited before. -/
abbrev Search : Type :=
  (edges : List Edge) → (unseen : List NodeId) → (start : NodeId) → List NodeId

/-- The search visits what edges lead to from its start without entering what was
visited before, and nothing else. -/
def Search.IsExhaustive (search : Search) : Prop :=
  ∀ edges unseen start id,
    id ∈ search edges unseen start ↔ Found edges unseen [start] id

theorem follow_isExhaustive :
    Search.IsExhaustive fun edges unseen start => follow edges unseen [start] :=
  fun _ _ _ _ => ⟨Found.of_mem_follow, Found.mem_follow⟩

/-- A search begun again at each start.  What it visited is not visited again. -/
def restarted (search : Search) (edges : List Edge) :
    (unseen starts : List NodeId) → List NodeId
  | _, [] => []
  | unseen, start :: rest =>
      let visited := search edges unseen start
      visited ++
        restarted search edges (unseen.filter fun id => id ∉ visited) rest

namespace Found

variable {unseen fewer pending more : List NodeId}

theorem mono (found : Found edges fewer pending id) (unseenSubset : fewer ⊆ unseen)
    (pendingSubset : pending ⊆ more) : Found edges unseen more id := by
  induction found with
  | pending isUnseen isPending =>
      exact .pending (unseenSubset isUnseen) (pendingSubset isPending)
  | edge edgeIn _ isUnseen ih => exact .edge edgeIn ih (unseenSubset isUnseen)

theorem not_nil : ¬ Found edges unseen [] id := by
  intro found
  induction found with
  | pending _ isPending => cases isPending
  | edge _ _ _ ih => exact ih

/-- What is found from several nodes is found from the first one, or from the
others without what the first one leads to. -/
theorem cons_iff {start : NodeId} {rest : List NodeId}
    {visited : List NodeId}
    (isVisited : ∀ id, id ∈ visited ↔ Found edges unseen [start] id) :
    Found edges unseen (start :: rest) id ↔
      Found edges unseen [start] id ∨
        Found edges (unseen.filter fun id => id ∉ visited) rest id := by
  have isLeft : ∀ {id}, id ∈ unseen →
      Found edges unseen [start] id ∨
        id ∈ unseen.filter fun id => id ∉ visited := by
    intro id isUnseen
    by_cases isFound : id ∈ visited
    · exact .inl ((isVisited id).mp isFound)
    · exact .inr (List.mem_filter.mpr ⟨isUnseen, decide_eq_true isFound⟩)
  constructor
  · intro found
    induction found with
    | pending isUnseen isPending =>
        rcases List.mem_cons.mp isPending with rfl | inRest
        · exact .inl (.pending isUnseen (List.mem_singleton_self _))
        · exact (isLeft isUnseen).imp_right fun isLeft => .pending isLeft inRest
    | edge edgeIn _ isUnseen ih =>
        rcases ih with fromStart | fromRest
        · exact .inl (.edge edgeIn fromStart isUnseen)
        · exact (isLeft isUnseen).imp_right fun isLeft =>
            .edge edgeIn fromRest isLeft
  · rintro (fromStart | fromRest)
    · exact fromStart.mono (List.Subset.refl _) (by simp)
    · exact fromRest.mono (fun _ isLeft => (List.mem_filter.mp isLeft).1)
        (List.subset_cons_self _ _)

end Found

/-- Restarts find what is found from all starts at once. -/
theorem mem_restarted_iff {search : Search} (exhaustive : search.IsExhaustive)
    {unseen : List NodeId} :
    id ∈ restarted search edges unseen starts ↔
      Found edges unseen starts id := by
  induction starts generalizing unseen with
  | nil => simp [restarted, Found.not_nil]
  | cons start rest ih =>
      rw [restarted, List.mem_append, ih,
        Found.cons_iff (exhaustive edges unseen start), exhaustive]

/-! ## Blocks -/

variable {α : Type}

/-- A block without a figure has a node among its members. -/
def HasMember (nodes : List (DiagramNode α)) (outer inner : NodeId) : Prop :=
  ∃ block ∈ nodes, ∃ member ∈ nodes, block.id = outer ∧ member.id = inner ∧
    block.tag = .block ∧ block.figure = none ∧ member.parent = some outer

theorem withBlocks_congr {nodes : List (DiagramNode α)}
    {reached others : List NodeId} (same : ∀ id, id ∈ reached ↔ id ∈ others) :
    id ∈ withBlocks nodes reached ↔ id ∈ withBlocks nodes others := by
  have each : ∀ some : List (DiagramNode α), ∀ id,
      id ∈ some.foldr (addBlock nodes) reached ↔
        id ∈ some.foldr (addBlock nodes) others := by
    intro some
    induction some with
    | nil => exact same
    | cons node rest ih =>
        intro id
        rw [List.foldr_cons, List.foldr_cons, mem_addBlock, mem_addBlock, ih, ih]
  exact each nodes id

theorem isFrameless_iff {nodes : List (DiagramNode α)}
    (distinct : (nodes.map DiagramNode.id).Nodup) {block : DiagramNode α}
    (blockIn : block ∈ nodes) :
    isFrameless nodes block.id = true ↔ block.figure = none := by
  have found : nodes.find? (fun node => node.id = block.id) = some block :=
    Keyed.find?_eq_some distinct blockIn
  rw [isFrameless, found, Option.any_some, Option.isNone_iff_eq_none]

/-- What holds a marked node, however deep in blocks, is marked. -/
theorem mem_withBlocks_of_holds {nodes : List (DiagramNode α)}
    {reached : List NodeId} {low : NodeId}
    (distinct : (nodes.map DiagramNode.id).Nodup)
    (first : Arrangement.ParentsFirst [] nodes)
    (below : Relation.TransGen (HasMember nodes) id low)
    (isMarked : low ∈ withBlocks nodes reached) : id ∈ withBlocks nodes reached := by
  have step : ∀ {outer inner}, HasMember nodes outer inner →
      inner ∈ withBlocks nodes reached → outer ∈ withBlocks nodes reached := by
    rintro outer inner ⟨block, blockIn, member, memberIn, rfl, rfl, -, noFigure,
      isParent⟩ isMarked
    exact parent_mem_withBlocks distinct first memberIn isParent
      ((isFrameless_iff distinct blockIn).mpr noFigure) isMarked
  induction below using Relation.TransGen.head_induction_on with
  | single holds => exact step holds isMarked
  | head holds _ ih => exact step holds ih

/-- One pass from the last node to the first marks all blocks that hold what is
reached, however deep it lies in blocks. -/
theorem mem_withBlocks_iff {nodes : List (DiagramNode α)}
    {reached : List NodeId}
    (distinct : (nodes.map DiagramNode.id).Nodup)
    (first : Arrangement.ParentsFirst [] nodes)
    (blocks : ∀ node ∈ nodes, node.figure = none → node.tag = .block) :
    id ∈ withBlocks nodes reached ↔ id ∈ reached ∨
      ∃ low, Relation.TransGen (HasMember nodes) id low ∧ low ∈ reached := by
  constructor
  · refine @withBlocks_subset _ _ _ (fun id => id ∈ reached ∨
      ∃ low, Relation.TransGen (HasMember nodes) id low ∧ low ∈ reached)
      (fun _ => .inl) ?_ id
    intro node nodeIn parent isParent frameless isMarked
    obtain ⟨block, found, noFigure⟩ := Option.any_eq_true _ _ |>.mp frameless
    have blockIn := List.mem_of_find?_eq_some found
    have isBlock : block.id = parent := by simpa using List.find?_some found
    have noFigure := Option.isNone_iff_eq_none.mp noFigure
    have holds : HasMember nodes parent node.id :=
      ⟨block, blockIn, node, nodeIn, isBlock, rfl, blocks block blockIn noFigure,
        noFigure, isParent⟩
    rcases isMarked with isReached | ⟨low, below, isReached⟩
    · exact .inr ⟨node.id, .single holds, isReached⟩
    · exact .inr ⟨low, .head holds below, isReached⟩
  · rintro (isReached | ⟨low, below, isReached⟩)
    · exact subset_addBlocks _ _ _ isReached
    · exact mem_withBlocks_of_holds distinct first below
        (subset_addBlocks _ _ _ isReached)

/-! ## Marks -/

/-- The marks of a diagram where the nodes that flow reaches are known. -/
def withMarks (diagram : Diagram α) (reached : List NodeId) : Diagram α :=
  let marked := withBlocks diagram.nodes reached
  { diagram with
    nodes := diagram.nodes.map fun node =>
      { node with reachable := decide (node.id ∈ marked) }
    edges := diagram.edges.map fun edge =>
      { edge with reachable := decide (edge.source.node ∈ marked) } }

/-- Marks what a search finds that is begun again at each start. -/
def markedBy (search : Search) (diagram : Diagram α) (starts : List NodeId) :
    Diagram α :=
  diagram.withMarks
    (restarted search diagram.edges (diagram.nodes.map DiagramNode.id) starts)

theorem markReachable_eq (diagram : Diagram α) (starts : List NodeId) :
    diagram.markReachable starts = diagram.withMarks
      (follow diagram.edges (diagram.nodes.map DiagramNode.id) starts) :=
  rfl

theorem withMarks_congr {diagram : Diagram α} {reached others : List NodeId}
    (same : ∀ id, id ∈ reached ↔ id ∈ others) :
    diagram.withMarks reached = diagram.withMarks others := by
  simp only [withMarks, withBlocks_congr same]

/-- All searches come to the same marks. -/
theorem markedBy_eq {search : Search} (exhaustive : search.IsExhaustive)
    (diagram : Diagram α) (starts : List NodeId) :
    diagram.markedBy search starts = diagram.markReachable starts := by
  rw [markReachable_eq]
  refine withMarks_congr fun id => (mem_restarted_iff exhaustive).trans ?_
  exact ⟨Found.mem_follow, Found.of_mem_follow⟩

/-- The nodes that flow from the starts reaches, the blocks that hold such nodes,
and the edges that leave either are marked, and nothing else is. -/
structure MarksFlow (diagram : Diagram α) (starts : List NodeId) : Prop where
  nodes : ∀ node ∈ diagram.nodes, node.reachable = true ↔
    FlowsFrom diagram.edges starts node.id ∨
      ∃ low, Relation.TransGen (HasMember diagram.nodes) node.id low ∧
        FlowsFrom diagram.edges starts low
  edges : ∀ edge ∈ diagram.edges, edge.reachable = true ↔
    ∃ node ∈ diagram.nodes, node.id = edge.source.node ∧ node.reachable = true

theorem leads_withMarks (diagram : Diagram α) (reached : List NodeId) :
    Leads (diagram.withMarks reached).edges = Leads diagram.edges := by
  ext source target
  simp [Leads, withMarks]

theorem hasMember_withMarks (diagram : Diagram α) (reached : List NodeId) :
    HasMember (diagram.withMarks reached).nodes = HasMember diagram.nodes := by
  ext outer inner
  simp [HasMember, withMarks]

theorem markReachable_marksFlow {diagram : Diagram α} {starts : List NodeId}
    (distinct : (diagram.nodes.map DiagramNode.id).Nodup)
    (first : Arrangement.ParentsFirst [] diagram.nodes)
    (blocks : ∀ node ∈ diagram.nodes, node.figure = none → node.tag = .block)
    (ends : ∀ edge ∈ diagram.edges,
      edge.source.node ∈ diagram.nodes.map DiagramNode.id ∧
        edge.target.node ∈ diagram.nodes.map DiagramNode.id)
    (startIn : ∀ start ∈ starts, start ∈ diagram.nodes.map DiagramNode.id) :
    (diagram.markReachable starts).MarksFlow starts := by
  have isReached : ∀ id, id ∈ follow diagram.edges
      (diagram.nodes.map DiagramNode.id) starts ↔
        FlowsFrom diagram.edges starts id :=
    fun _ => mem_follow_iff (fun edge edgeIn => (ends edge edgeIn).2) startIn
  rw [markReachable_eq]
  constructor
  · intro marked markedIn
    obtain ⟨node, nodeIn, rfl⟩ := List.mem_map.mp markedIn
    simp only [FlowsFrom, leads_withMarks, hasMember_withMarks]
    rw [decide_eq_true_iff, mem_withBlocks_iff distinct first blocks]
    simp only [isReached, FlowsFrom]
  · intro marked markedIn
    obtain ⟨edge, edgeIn, rfl⟩ := List.mem_map.mp markedIn
    obtain ⟨node, nodeIn, isSource⟩ := List.mem_map.mp (ends edge edgeIn).1
    constructor
    · intro isMarked
      refine ⟨_, List.mem_map_of_mem nodeIn, isSource, ?_⟩
      rwa [isSource]
    · rintro ⟨other, otherIn, isSource, isMarked⟩
      obtain ⟨node, nodeIn, rfl⟩ := List.mem_map.mp otherIn
      rwa [← isSource]

end Diagram

/-! ## Measured trees -/

namespace Program

variable {α : Type} [Scalar α] {settings : LayoutSettings α}
  {program : Program (Label α)}

theorem tag_of_figure {node : DiagramNode α}
    (nodeIn : node ∈ (Diagram.unmarked (program.framed settings)).nodes)
    (noFigure : node.figure = none) : node.tag = .block := by
  obtain ⟨above, shown, corner, stands, rfl⟩ := Arrangement.of_mem_place nodeIn
  have shownIn := stands.mem_preorder
  rw [preorder_framed] at shownIn
  obtain ⟨inner, -, rfl⟩ := List.mem_map.mp shownIn
  have isFilled : inner.isFilledBlock = true := by
    rw [← figure_framed settings, Option.isNone_iff_eq_none]
    exact Option.map_eq_none_iff.mp noFigure
  show (inner.framed settings).tag = .block
  rw [tag_framed]
  cases inner with
  | block => rfl
  | _ => simp [isFilledBlock] at isFilled

variable (settings) in
theorem marksFlow (outer : program.Outer) (distinct : program.ids.Nodup) :
    ((Diagram.unmarked (program.framed settings)).markReachable
      (program.map Label.id).flow.2).MarksFlow (program.map Label.id).flow.2 := by
  have reaches := ((outer.map Label.id).allReached
    (by rwa [labels_map_id])).alone
  rw [labels_map_id] at reaches
  have edges_eq : (Diagram.unmarked (program.framed settings)).edges =
      (program.map Label.id).flow.1 := by
    rw [Diagram.unmarked, map_framed]
  refine Diagram.markReachable_marksFlow ?_ ?_ (fun _ => tag_of_figure) ?_ ?_
  · rwa [ids_nodes]
  · exact Arrangement.parentsFirst_place (by simp)
  · rw [edges_eq, ids_nodes]
    exact reaches.edgesInside
  · rw [ids_nodes]
    exact fun start isStart =>
      reaches.reachedInside start (reaches.startsReached start isStart)

end Program

namespace Tree

variable {α : Type} [Scalar α]

/-- In whatever way the nodes are searched, the marks of a tree that passes
validation and is measured are those of the flow in it.  These marks are the ones
in its diagram. -/
theorem marks_flow {settings : LayoutSettings α} {tree : Tree α}
    {program : Program (Label α)} {cache : ArrangementCache α}
    {arrangement : Arrangement α} {search : Diagram.Search}
    (read : tree.program settings.maxDepth = .ok program)
    (sound : cache.Sound settings program)
    (measured : ((program.measure settings).run.run cache).1 = .ok arrangement)
    (exhaustive : search.IsExhaustive) :
    let starts := (arrangement.map Frame.id).flow.2
    let marked := (Diagram.unmarked arrangement).markedBy search starts
    marked.MarksFlow starts ∧
      ∀ diagram, Diagram.ofArrangement arrangement = .ok diagram →
        diagram = marked := by
  have accepted := validate_of_program read
  obtain ⟨located, stores⟩ := exists_stores accepted
  obtain rfl := Except.ok.inj (read.symm.trans (program_eq accepted stores))
  rw [(Program.measure_gives stores.ids_nodup sound).result_eq] at measured
  obtain ⟨-, rfl⟩ := settle_eq_ok.mp measured
  intro starts marked
  have isMarked : marked = (Diagram.unmarked
      (located.written.framed settings)).markReachable starts :=
    Diagram.markedBy_eq exhaustive _ _
  rw [isMarked]
  refine ⟨?_, fun diagram isDiagram => ?_⟩
  · simp only [starts, Program.map_framed]
    exact Program.marksFlow settings (stores.outer.map Prod.snd) stores.ids_nodup
  · refine Diagram.eq_of_ofArrangement ?_ isDiagram
    rw [Program.ids_framed]
    exact stores.ids_nodup

/-- A search that goes on after results, over a tree with blocks in blocks. -/
theorem marks_flow_deadBranch : ∃ (program : Program (Label Rat))
    (arrangement : Arrangement Rat),
    deadBranch.plainTree.program
        (LayoutSettings.standard : LayoutSettings Rat).maxDepth = .ok program ∧
      ((program.measure .standard).run.run .empty).1 = .ok arrangement ∧
      let starts := (arrangement.map Frame.id).flow.2
      ((Diagram.unmarked arrangement).markedBy
        (fun edges unseen start => Diagram.follow edges unseen [start])
        starts).MarksFlow starts := by
  obtain ⟨located, stores⟩ := exists_stores deadBranch_valid
  have read := program_eq deadBranch_valid stores
  have sound : ArrangementCache.empty.Sound .standard located.written :=
    sound_empty _
  have measured := (Program.measure_gives stores.ids_nodup sound).result_eq
  rw [Program.arrange, Arrangement.fault?_eq_none
    (Program.fits_framed LayoutSettings.standard_accepted _)] at measured
  exact ⟨_, _, read, measured, (marks_flow read sound measured
    Diagram.follow_isExhaustive).1⟩

end Tree

end Flowchart
