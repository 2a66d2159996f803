import Flowchart.Proofs.Flow.Endpoints

/-!
# Marked nodes

Layout marks exactly the nodes that the flow beginning in a program reaches.
That is less than what is live where a service has a body that is not a block
with members, and more where flow passes something that cannot complete.
-/

namespace Flowchart

open Diagram (Closed)

namespace Program

variable {α : Type} [Scalar α] {settings : LayoutSettings α}
  {program : Program (Label α)}

/-! ## Nodes of the diagram -/

/-- What is known of a node of the diagram from the program. -/
theorem of_mem_nodes {node : DiagramNode α}
    (nodeIn : node ∈ (Diagram.unmarked (program.framed settings)).nodes) :
    ∃ shown ∈ program.preorder, node.id = shown.label.id ∧
      node.figure.isNone = shown.isFilledBlock ∧
      ∀ parent, node.parent = some parent → ∃ outer ∈ program.preorder,
        outer.label.id = parent ∧ shown ∈ outer.children := by
  obtain ⟨above, framedShown, corner, stands, rfl⟩ :=
    Arrangement.of_mem_place nodeIn
  cases stands with
  | root =>
      exact ⟨program, self_mem_preorder _, id_framed settings program,
        by simp [Arrangement.nodeAt, ← figure_framed settings],
        by simp [Arrangement.nodeAt, Arrangement.parentBelow]⟩
  | child parentStands isChild =>
      have parentIn := parentStands.mem_preorder
      rw [preorder_framed] at parentIn
      obtain ⟨outer, outerIn, rfl⟩ := List.mem_map.mp parentIn
      rw [children_framed] at isChild
      obtain ⟨shown, shownIn, rfl⟩ := List.mem_map.mp isChild
      refine ⟨shown, mem_preorder_trans outerIn (child_mem_preorder shownIn),
        id_framed settings shown,
        by simp [Arrangement.nodeAt, ← figure_framed settings],
        ?_⟩
      rintro parent ⟨⟩
      exact ⟨outer, outerIn, (id_framed settings outer).symm, shownIn⟩

variable (settings) in
/-- Every child is shown with its parent. -/
theorem exists_node_of_child {outer child : Program (Label α)}
    (outerIn : outer ∈ program.preorder) (childIn : child ∈ outer.children) :
    ∃ node ∈ (Diagram.unmarked (program.framed settings)).nodes,
      node.id = child.label.id ∧ node.parent = some outer.label.id := by
  have framedIn : outer.framed settings ∈ (program.framed settings).preorder := by
    rw [preorder_framed]
    exact List.mem_map_of_mem outerIn
  have framedChild : child.framed settings ∈
      (outer.framed settings).children := by
    rw [children_framed]
    exact List.mem_map_of_mem childIn
  obtain ⟨above, stands⟩ := Stands.of_mem_preorder framedIn
  obtain ⟨corner, placed⟩ := Arrangement.exists_mem_place
    (stands.child framedChild) .origin none 0
  refine ⟨_, placed, id_framed settings child, ?_⟩
  exact congrArg some (id_framed settings outer)

variable (settings program) in
theorem ids_nodes : (Diagram.unmarked (program.framed settings)).nodes.map
    DiagramNode.id = program.ids := by
  rw [Diagram.unmarked, Arrangement.ids_place, ids_framed]

omit [Scalar α] in
/-- A node of the program is known by its identity. -/
theorem eq_of_id {first second : Program (Label α)}
    (distinct : program.ids.Nodup) (firstIn : first ∈ program.preorder)
    (secondIn : second ∈ program.preorder)
    (same : first.label.id = second.label.id) : first = second :=
  List.inj_on_of_nodup_map distinct firstIn secondIn same

/-- Only blocks with members are without a figure. -/
theorem isFrameless_iff (distinct : program.ids.Nodup)
    {shown : Program (Label α)} (shownIn : shown ∈ program.preorder) :
    Diagram.isFrameless (Diagram.unmarked (program.framed settings)).nodes
        shown.label.id = shown.isFilledBlock := by
  have isNode : shown.label.id ∈
      (Diagram.unmarked (program.framed settings)).nodes.map DiagramNode.id := by
    rw [ids_nodes]
    exact List.mem_map_of_mem (f := fun node => node.label.id) shownIn
  obtain ⟨node, nodeIn, isShown⟩ := List.mem_map.mp isNode
  obtain ⟨other, otherIn, isOther, figure, -⟩ := of_mem_nodes nodeIn
  obtain rfl := eq_of_id distinct otherIn shownIn (isOther.symm.trans isShown)
  have nodesNodup : ((Diagram.unmarked (program.framed settings)).nodes.map
      DiagramNode.id).Nodup := by rwa [ids_nodes]
  have found := Keyed.find?_eq_some nodesNodup nodeIn
  rw [isShown] at found
  rw [Diagram.isFrameless, show List.find? _ _ = some node from found]
  exact figure

/-! ## What the search marks -/

omit [Scalar α] in
theorem mem_follow_iff (outer : program.Outer) (distinct : program.ids.Nodup)
    {id : NodeId} :
    id ∈ Diagram.follow (program.map Label.id).flow.1 program.ids
        (program.map Label.id).flow.2 ↔
      FlowReaches false (program.map Label.id) id := by
  have reaches := ((outer.map Label.id).allReached
    (by rwa [labels_map_id])).alone
  rw [labels_map_id] at reaches
  constructor
  · exact Diagram.follow_subset reaches.closed reaches.startsReached
  · refine reaches.spreads _
      (Diagram.follow_closed fun edge edgeIn =>
        (reaches.edgesInside edge edgeIn).2)
      (fun start isStart => ?_) id
    exact Diagram.start_mem_follow isStart
      (reaches.reachedInside start (reaches.startsReached start isStart))

variable (outer : program.Outer) (distinct : program.ids.Nodup)

include outer distinct

variable (settings) in
theorem exists_reached_of_mem {id : NodeId}
    (marked : id ∈ Diagram.reachedFrom
      (Diagram.unmarked (program.framed settings)).nodes
      (program.map Label.id).flow.1 (program.map Label.id).flow.2) :
    ∃ shown, Reached false (program.map Label.id) shown ∧ shown.label = id := by
  have nodup : (program.map Label.id).labels.Nodup := by rwa [labels_map_id]
  have ids_eq : (Diagram.unmarked (program.framed settings)).nodes.map
      (fun node => node.id) = program.ids := ids_nodes settings program
  rw [Diagram.reachedFrom, ids_eq] at marked
  refine @Diagram.withBlocks_subset _ _ _ (fun id =>
    ∃ shown, Reached false (program.map Label.id) shown ∧ shown.label = id)
    (fun id isFound => ?_) ?_ id marked
  · obtain ⟨shown, reached, -, isShown⟩ :=
      (mem_follow_iff outer distinct).mp isFound
    exact ⟨shown, reached, isShown⟩
  · rintro node nodeIn parent isParent frameless ⟨reachedNode, reached, isNode⟩
    obtain ⟨shown, shownIn, isShown, -, hasParent⟩ := of_mem_nodes nodeIn
    obtain ⟨block, blockIn, rfl, isChild⟩ := hasParent parent isParent
    rw [isFrameless_iff distinct blockIn] at frameless
    have nodeEq : reachedNode = shown.map Label.id := by
      have inPreorder := reached.live.mem_preorder
      rw [preorder_map] at inPreorder
      obtain ⟨other, otherIn, rfl⟩ := List.mem_map.mp inPreorder
      rw [label_map, isShown] at isNode
      rw [eq_of_id distinct otherIn shownIn isNode]
    refine ⟨block.map Label.id, ?_, label_map _ _⟩
    refine (Reached.iff_of_filled nodup ?_ ?_).mpr ⟨reachedNode, ?_, reached⟩
    · rw [preorder_map]
      exact List.mem_map_of_mem blockIn
    · rwa [isFilledBlock_map]
    · rw [children_map, nodeEq]
      exact List.mem_map_of_mem isChild

variable (settings) in
theorem mem_reachedFrom {shown : Program (Label α)}
    (shownIn : shown ∈ program.preorder)
    (reached : Reached false (program.map Label.id) (shown.map Label.id)) :
    shown.label.id ∈ Diagram.reachedFrom
      (Diagram.unmarked (program.framed settings)).nodes
      (program.map Label.id).flow.1 (program.map Label.id).flow.2 := by
  have nodup : (program.map Label.id).labels.Nodup := by rwa [labels_map_id]
  have ids_eq : (Diagram.unmarked (program.framed settings)).nodes.map
      (fun node => node.id) = program.ids := ids_nodes settings program
  have nodesNodup : ((Diagram.unmarked (program.framed settings)).nodes.map
      DiagramNode.id).Nodup := by rwa [ids_nodes]
  have first : Arrangement.ParentsFirst []
      (Diagram.unmarked (program.framed settings)).nodes :=
    Arrangement.parentsFirst_place (by simp)
  rw [Diagram.reachedFrom, ids_eq]
  induction shown using childrenInduction with
  | step shown ih =>
    cases isFilled : shown.isFilledBlock with
    | false =>
        refine Diagram.subset_addBlocks _ _ _
          ((mem_follow_iff outer distinct).mpr ?_)
        exact ⟨_, reached, by rwa [isFilledBlock_map], label_map _ _⟩
    | true =>
        -- A block that is drawn through its members is marked for one of them.
        obtain ⟨_, memberIn, memberReached⟩ := (Reached.iff_of_filled nodup
          reached.live.mem_preorder (by rwa [isFilledBlock_map])).mp reached
        rw [children_map] at memberIn
        obtain ⟨member, isMember, rfl⟩ := List.mem_map.mp memberIn
        have marked := ih member isMember
          (mem_preorder_trans shownIn (child_mem_preorder isMember)) memberReached
        obtain ⟨node, nodeIn, isNode, isParent⟩ :=
          exists_node_of_child settings shownIn isMember
        refine Diagram.parent_mem_withBlocks nodesNodup first nodeIn isParent
          ?_ ?_
        · rwa [isFrameless_iff distinct shownIn]
        · rwa [isNode]

variable (settings) in
/-- Exactly the nodes that the flow of the program reaches are marked. -/
theorem mem_reachedFrom_iff {id : NodeId} :
    id ∈ Diagram.reachedFrom
        (Diagram.unmarked (program.framed settings)).nodes
        (program.map Label.id).flow.1 (program.map Label.id).flow.2 ↔
      ∃ shown, Reached false (program.map Label.id) shown ∧
        shown.label = id := by
  refine ⟨exists_reached_of_mem settings outer distinct, ?_⟩
  rintro ⟨_, reached, rfl⟩
  have inPreorder := reached.live.mem_preorder
  rw [preorder_map] at inPreorder
  obtain ⟨shown, shownIn, rfl⟩ := List.mem_map.mp inPreorder
  rw [label_map]
  exact mem_reachedFrom settings outer distinct shownIn reached

end Program

end Flowchart
