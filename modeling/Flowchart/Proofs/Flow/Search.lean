import Flowchart.Diagram.Reachability
import Flowchart.Proofs.Layout.Placed

/-!
# What the search finds

Following edges from a list of nodes finds the least set that holds these nodes
and that no edge leads out of, as far as it lies among the nodes searched.  Blocks
are then marked from their members upwards.
-/

namespace Flowchart.Diagram

/-- A node that edges lead to, over nodes of `unseen` only, from one that is
pending. -/
inductive Found (edges : List Edge) (unseen pending : List NodeId) :
    NodeId → Prop where
  | pending {id : NodeId} : id ∈ unseen → id ∈ pending →
      Found edges unseen pending id
  | edge {edge : Edge} : edge ∈ edges →
      Found edges unseen pending edge.source.node →
      edge.target.node ∈ unseen → Found edges unseen pending edge.target.node

namespace Found

variable {edges : List Edge} {unseen pending rest : List NodeId}
  {id found : NodeId}

/-- The targets of all edges that leave a node. -/
def targets (edges : List Edge) (id : NodeId) : List NodeId :=
  (edges.filter fun edge => edge.source.node = id).map
    fun edge => edge.target.node

private theorem mem_targets {edge : Edge} (edgeIn : edge ∈ edges) :
    edge.target.node ∈ targets edges edge.source.node :=
  List.mem_map.mpr ⟨edge, List.mem_filter.mpr ⟨edgeIn, by simp⟩, rfl⟩

/-- The targets as the recursion over the search takes them. -/
theorem attached_targets :
    ((edges.attach.filter fun edge => decide (edge.1.source.node = id)).map
      fun edge => edge.1.target.node) = targets edges id := by
  have filtered :
      (edges.attach.filter fun edge => decide (edge.1.source.node = id)).map
        Subtype.val = edges.filter fun edge => edge.source.node = id := by
    conv_rhs => rw [← edges.attach_map_subtype_val, List.filter_map]
    rfl
  rw [targets, ← filtered, List.map_map]
  rfl

/-- What is found without a node is also found with it, after its edges. -/
theorem of_entered (isUnseen : id ∈ unseen)
    (later : Found edges (unseen.erase id) (targets edges id ++ rest) found) :
    Found edges unseen (id :: rest) found := by
  induction later with
  | pending inErased isNext =>
      have inUnseen := List.mem_of_mem_erase inErased
      rcases List.mem_append.mp isNext with isTarget | inRest
      · obtain ⟨edge, leaves, rfl⟩ := List.mem_map.mp isTarget
        obtain ⟨edgeIn, isSource⟩ := List.mem_filter.mp leaves
        refine .edge edgeIn ?_ inUnseen
        rw [of_decide_eq_true isSource]
        exact .pending isUnseen List.mem_cons_self
      · exact .pending inUnseen (List.mem_cons_of_mem _ inRest)
  | edge edgeIn _ inErased ih =>
      exact .edge edgeIn ih (List.mem_of_mem_erase inErased)

/-- Once a node is entered, all others are found without it. -/
theorem entered (before : Found edges unseen (id :: rest) found)
    (different : found ≠ id) :
    Found edges (unseen.erase id) (targets edges id ++ rest) found := by
  induction before with
  | pending inUnseen isPending =>
      have inErased := (List.mem_erase_of_ne different).mpr inUnseen
      rcases List.mem_cons.mp isPending with isId | inRest
      · exact absurd isId different
      · exact .pending inErased (List.mem_append_right _ inRest)
  | @edge edge edgeIn _ inUnseen ih =>
      have inErased := (List.mem_erase_of_ne different).mpr inUnseen
      by_cases fromId : edge.source.node = id
      · refine .pending inErased (List.mem_append_left _ ?_)
        rw [← fromId]
        exact mem_targets edgeIn
      · exact .edge edgeIn (ih fromId) inErased

/-- A node that was seen before is of no use. -/
theorem passed_over (seen : id ∉ unseen) :
    Found edges unseen (id :: rest) found ↔ Found edges unseen rest found := by
  constructor
  · intro before
    induction before with
    | pending inUnseen isPending =>
        rcases List.mem_cons.mp isPending with rfl | inRest
        · exact absurd inUnseen seen
        · exact .pending inUnseen inRest
    | edge edgeIn _ inUnseen ih => exact .edge edgeIn ih inUnseen
  · intro after
    induction after with
    | pending inUnseen inRest =>
        exact .pending inUnseen (List.mem_cons_of_mem _ inRest)
    | edge edgeIn _ inUnseen ih => exact .edge edgeIn ih inUnseen

theorem of_mem_follow (isFound : found ∈ follow edges unseen pending) :
    Found edges unseen pending found := by
  fun_induction follow edges unseen pending with
  | case1 unseen => simp at isFound
  | case2 unseen id rest isUnseen next ih =>
      have isTargets : next = targets edges id := attached_targets
      rw [isTargets] at ih
      rcases List.mem_cons.mp isFound with rfl | later
      · exact .pending isUnseen List.mem_cons_self
      · exact of_entered isUnseen (ih later)
  | case3 unseen id rest seen ih =>
      exact (passed_over seen).mpr (ih isFound)

theorem mem_follow (isFound : Found edges unseen pending found) :
    found ∈ follow edges unseen pending := by
  fun_induction follow edges unseen pending with
  | case1 unseen =>
      induction isFound with
      | pending _ inNone => simp at inNone
      | edge _ _ _ ih => exact absurd ih List.not_mem_nil
  | case2 unseen id rest isUnseen next ih =>
      have isTargets : next = targets edges id := attached_targets
      rw [isTargets] at ih
      by_cases isId : found = id
      · rw [isId]
        exact List.mem_cons_self
      · exact List.mem_cons_of_mem _ (ih (isFound.entered isId))
  | case3 unseen id rest seen ih =>
      exact ih ((passed_over seen).mp isFound)

end Found

/-! ## The least closed set -/

/-- No edge leads out of the set. -/
def Closed (edges : List Edge) (inside : NodeId → Prop) : Prop :=
  ∀ edge ∈ edges, inside edge.source.node → inside edge.target.node

variable {edges : List Edge} {nodes starts : List NodeId}

/-- What is followed stays inside a set that no edge leads out of. -/
theorem follow_subset {inside : NodeId → Prop} (closed : Closed edges inside)
    (startInside : ∀ start ∈ starts, inside start) {id : NodeId}
    (isFound : id ∈ follow edges nodes starts) : inside id := by
  have found := Found.of_mem_follow isFound
  induction found with
  | pending _ isStart => exact startInside _ isStart
  | @edge edge edgeIn source _ ih => exact closed edge edgeIn (ih source.mem_follow)

/-- No edge between the nodes leads out of what is followed. -/
theorem follow_closed (endIn : ∀ edge ∈ edges, edge.target.node ∈ nodes) :
    Closed edges (· ∈ follow edges nodes starts) :=
  fun edge edgeIn source =>
    (Found.edge edgeIn (Found.of_mem_follow source)
      (endIn edge edgeIn)).mem_follow

theorem start_mem_follow {start : NodeId} (isStart : start ∈ starts)
    (isNode : start ∈ nodes) : start ∈ follow edges nodes starts :=
  (Found.pending isNode isStart).mem_follow

/-! ## Blocks -/

variable {α : Type}

/-- What one node adds to what is reached: its parent, if this is a block
without a figure. -/
def addBlock (all : List (DiagramNode α)) (node : DiagramNode α)
    (reached : List NodeId) : List NodeId :=
  match node.parent with
  | some parent =>
      if node.id ∈ reached && isFrameless all parent then parent :: reached
      else reached
  | none => reached

theorem mem_addBlock {all : List (DiagramNode α)} {node : DiagramNode α}
    {reached : List NodeId} {id : NodeId} :
    id ∈ addBlock all node reached ↔
      id ∈ reached ∨ node.parent = some id ∧ node.id ∈ reached ∧
        isFrameless all id = true := by
  unfold addBlock
  cases isParent : node.parent with
  | none => simp
  | some parent =>
      simp only [Bool.and_eq_true, decide_eq_true_eq, Option.some.injEq]
      split
      · rename_i adds
        rw [List.mem_cons, or_comm]
        refine or_congr_right ⟨?_, fun isId => isId.1.symm⟩
        rintro rfl
        exact ⟨rfl, adds⟩
      · rename_i notAdds
        refine ⟨.inl, ?_⟩
        rintro (isReached | ⟨rfl, adds⟩)
        · exact isReached
        · exact absurd adds notAdds

theorem withBlocks_eq (all : List (DiagramNode α)) (reached : List NodeId) :
    withBlocks all reached = all.foldr (addBlock all) reached :=
  rfl

theorem subset_addBlocks (all nodes : List (DiagramNode α))
    (reached : List NodeId) : reached ⊆ nodes.foldr (addBlock all) reached := by
  induction nodes with
  | nil => exact List.Subset.refl _
  | cons node rest ih =>
      exact fun id isReached => mem_addBlock.mpr (.inl (ih isReached))

/-- Only a parent of one of the nodes is added. -/
theorem mem_addBlocks {all nodes : List (DiagramNode α)}
    {reached : List NodeId} {id : NodeId}
    (isMarked : id ∈ nodes.foldr (addBlock all) reached) :
    id ∈ reached ∨ ∃ node ∈ nodes, node.parent = some id := by
  induction nodes with
  | nil => exact .inl isMarked
  | cons node rest ih =>
      rcases mem_addBlock.mp isMarked with isMarked | ⟨isParent, -⟩
      · exact (ih isMarked).imp_right fun ⟨other, otherIn, isParent⟩ =>
          ⟨other, List.mem_cons_of_mem _ otherIn, isParent⟩
      · exact .inr ⟨node, List.mem_cons_self, isParent⟩

/-- What is marked stays inside a set that holds the block of each of its
members. -/
theorem withBlocks_subset {all : List (DiagramNode α)} {reached : List NodeId}
    {inside : NodeId → Prop} (reachedInside : ∀ id ∈ reached, inside id)
    (blocks : ∀ node ∈ all, ∀ parent, node.parent = some parent →
      isFrameless all parent = true → inside node.id → inside parent) :
    ∀ id ∈ withBlocks all reached, inside id := by
  have marked : ∀ nodes : List (DiagramNode α), (∀ node ∈ nodes, node ∈ all) →
      ∀ id ∈ nodes.foldr (addBlock all) reached, inside id := by
    intro nodes
    induction nodes with
    | nil => exact fun _ => reachedInside
    | cons node rest ih =>
        intro inAll id isMarked
        have rest := ih fun other otherIn =>
          inAll other (List.mem_cons_of_mem _ otherIn)
        rcases mem_addBlock.mp isMarked with isMarked | ⟨isParent, isMarked,
          frameless⟩
        · exact rest id isMarked
        · exact blocks node (inAll node List.mem_cons_self) id isParent
            frameless (rest node.id isMarked)
  exact marked all fun _ => id

/-- A block is marked once one of its members is. -/
theorem parent_mem_withBlocks {all : List (DiagramNode α)}
    {reached : List NodeId} (distinct : (all.map DiagramNode.id).Nodup)
    (first : Arrangement.ParentsFirst [] all) {node : DiagramNode α}
    (nodeIn : node ∈ all) {parent : NodeId}
    (isParent : node.parent = some parent)
    (frameless : isFrameless all parent = true)
    (isMarked : node.id ∈ withBlocks all reached) :
    parent ∈ withBlocks all reached := by
  obtain ⟨before, after, rfl⟩ := List.append_of_mem nodeIn
  have isNew : node.id ∉ before.map DiagramNode.id := by
    rw [List.map_append, List.nodup_append] at distinct
    exact fun again => distinct.2.2 _ again _ (by simp) rfl
  have noParent : ∀ other ∈ before ++ [node], other.parent ≠ some node.id := by
    intro other otherIn isParent
    rcases first.parent_mem otherIn isParent with isKnown | inBefore
    · simp at isKnown
    · exact isNew inBefore
  rw [withBlocks_eq, List.foldr_append, List.foldr_cons] at isMarked ⊢
  refine subset_addBlocks _ _ _ (mem_addBlock.mpr (.inr ⟨isParent, ?_, frameless⟩))
  rcases mem_addBlocks isMarked with isMarked | ⟨other, otherIn, isParent⟩
  · rcases mem_addBlock.mp isMarked with isMarked | ⟨isParent, -⟩
    · exact isMarked
    · exact absurd isParent (noParent node (by simp))
  · exact absurd isParent (noParent other (List.mem_append_left _ otherIn))

end Flowchart.Diagram
