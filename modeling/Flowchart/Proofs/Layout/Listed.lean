import Flowchart.Proofs.Flow.Marks
import Flowchart.Proofs.Layout.Exact
import Flowchart.Proofs.Revision.Kinship
import Flowchart.Proofs.Tree.Matching

/-!
# A diagram lists the nodes of its tree

The nodes of a diagram are those that the walk through the tree meets, in the
order of the walk, each with what is stored of it and with its parent.
-/

namespace Flowchart

/-! ## What a diagram lists -/

/-- What the walk through a tree says of a node is what a diagram shows. -/
structure Tree.Shows {α : Type} (tree : Tree α) (entry : Handle × Nat)
    (shown : DiagramNode α) : Prop where
  stored : ∃ node, tree.node? entry.1 = some node ∧
    shown.id = node.id ∧ shown.tag = node.tag ∧ shown.text = node.text
  depth : shown.depth = entry.2
  parent : match tree.parents.lookup entry.1 with
    | none => tree.root = some entry.1 ∧ shown.parent = none
    | some parent => tree.root ≠ some entry.1 ∧
        ∃ node, tree.node? parent = some node ∧ shown.parent = some node.id

/-- The nodes of a diagram are those of the tree that can be reached, each once
and in the order of the walk, and its children are those in the filled places of
a node. -/
structure Diagram.Lists {α : Type} (diagram : Diagram α) (tree : Tree α) :
    Prop where
  nodes : List.Forall₂ tree.Shows tree.walk diagram.nodes
  walkedOnce : (tree.walk.map Prod.fst).Nodup
  walked : ∀ handle, handle ∈ tree.walk.map Prod.fst ↔ tree.Reaches handle
  listedOnce : (diagram.nodes.map DiagramNode.id).Nodup
  listed : ∀ id, id ∈ diagram.nodes.map DiagramNode.id ↔
    ∃ handle node, tree.HasNode handle node ∧ node.id = id
  children : ∀ handle node, tree.HasNode handle node →
    List.Forall₂
      (fun place child => ∃ stored, tree.node? place.2 = some stored ∧
        child.id = stored.id)
      (tree.children handle) (diagram.children node.id)

/-! ## Lists with the same keys -/

/-- Entries are related one by one if both lists go along one list of items. -/
theorem forall₂_of_map_eq {β γ δ κ ι : Type} {related : β → γ → Prop}
    {first : List β} {second : List γ} {items : List δ}
    {firstKey : β → κ} {secondKey : γ → ι} {key : δ → κ} {otherKey : δ → ι}
    (firstKeys : first.map firstKey = items.map key)
    (secondKeys : second.map secondKey = items.map otherKey)
    (each : ∀ item ∈ items, ∀ left ∈ first, ∀ right ∈ second,
      firstKey left = key item → secondKey right = otherKey item →
        related left right) : List.Forall₂ related first second := by
  induction items generalizing first second with
  | nil =>
      obtain rfl := List.map_eq_nil_iff.mp firstKeys
      obtain rfl := List.map_eq_nil_iff.mp secondKeys
      exact .nil
  | cons item items ih =>
      obtain ⟨left, others, rfl, isLeft, lefts⟩ := List.map_eq_cons_iff.mp firstKeys
      obtain ⟨right, more, rfl, isRight, rights⟩ :=
        List.map_eq_cons_iff.mp secondKeys
      refine .cons (each item List.mem_cons_self left List.mem_cons_self right
        List.mem_cons_self isLeft isRight) (ih lefts rights ?_)
      intro item itemIn left leftIn right rightIn
      exact each item (List.mem_cons_of_mem _ itemIn) left
        (List.mem_cons_of_mem _ leftIn) right (List.mem_cons_of_mem _ rightIn)

/-! ## Nodes of the diagram -/

namespace Program

theorem Stands.exists_of_children {L M : Type} {change : Program L → Program M}
    (children : ∀ program, (change program).children =
      program.children.map change) {root : Program L}
    {above : List (Program M)} {node : Program M}
    (stands : (change root).Stands above node) :
    ∃ uppers inner, root.Stands uppers inner ∧ uppers.map change = above ∧
      change inner = node := by
  induction stands with
  | root => exact ⟨[], root, .root, rfl, rfl⟩
  | child _ nodeIn ih =>
      obtain ⟨uppers, parent, parentStands, rfl, rfl⟩ := ih
      rw [children] at nodeIn
      obtain ⟨inner, innerIn, rfl⟩ := List.mem_map.mp nodeIn
      exact ⟨parent :: uppers, inner, parentStands.child innerIn, rfl, rfl⟩

variable {α : Type} [Scalar α] {settings : LayoutSettings α}

theorem text_framed (program : Program (Label α)) :
    (program.framed settings).label.text = program.label.text := by
  cases program with
  | decision label consequent alternative => cases alternative <;> rfl
  | block label members => cases members <;> rfl
  | _ => rfl

/-- A node of the diagram shows a node of the program with those above it. -/
theorem exists_stands_of_mem_nodes {program : Located α} {shown : DiagramNode α}
    (shownIn : shown ∈
      (Diagram.unmarked (program.written.framed settings)).nodes) :
    ∃ above node, program.Stands above node ∧
      shown.id = node.identity ∧ shown.tag = node.tag ∧
      shown.text = node.label.2.text ∧ shown.depth = above.length ∧
      shown.parent = above.head?.map identity := by
  obtain ⟨frames, frame, corner, frameStands, rfl⟩ :=
    Arrangement.of_mem_place shownIn
  have children : ∀ inner : Located α, (inner.written.framed settings).children =
      inner.children.map fun child => child.written.framed settings := by
    intro inner
    rw [children_framed, children_written, List.map_map]
    rfl
  obtain ⟨above, node, stands, rfl, rfl⟩ :=
    Stands.exists_of_children children frameStands
  refine ⟨above, node, stands, ?_, ?_, ?_, ?_, ?_⟩
  · simp [Arrangement.nodeAt, identity]
  · simp [Arrangement.nodeAt]
  · simp [Arrangement.nodeAt, text_framed]
  · simp [Arrangement.nodeAt]
  · cases above with
    | nil => rfl
    | cons parent _ => simp [Arrangement.nodeAt, Arrangement.parentBelow, identity]

end Program

namespace Tree

variable {α : Type} {tree : Tree α} {program : Located α}

/-! ## Along the walk -/

theorem Bears.lookup_handle (bears : tree.Bears program)
    {above : List (Located α)} {node : Located α}
    (stands : program.Stands above node) :
    tree.parents.lookup node.handle = above.head?.map Program.handle := by
  have handles := program.preorder_perm_kinships.map Program.handle
  have distinct := bears.handlesNodup
  rw [Program.handles, handles.nodup_iff, List.map_cons, List.map_map] at distinct
  obtain ⟨notChild, childrenDistinct⟩ := List.nodup_cons.mp distinct
  have keys : tree.parents.map Prod.fst = program.kinships.map
      (Program.handle ∘ Prod.fst) := by
    rw [bears.parents_eq, bears.links_eq, List.map_map]
    rfl
  cases stands with
  | root =>
      rw [List.head?_nil, Option.map_none, List.lookup_eq_none_iff]
      intro link linkIn
      rw [bne_iff_ne]
      intro same
      rw [← keys] at notChild
      exact notChild (same ▸ List.mem_map_of_mem linkIn)
  | @child above parent _ parentStands nodeIn =>
      rw [List.head?_cons, Option.map_some,
        Keyed.lookup_eq_some (keys ▸ childrenDistinct), bears.parents_eq,
        bears.links_eq]
      exact List.mem_map.mpr ⟨(node, parent),
        Program.mem_kinships.mpr ⟨parentStands.mem_preorder, nodeIn⟩, rfl⟩

/-- The walk says how many nodes are above a node. -/
theorem Bears.depth_eq (bears : tree.Bears program) {entry : Handle × Nat}
    (entryIn : entry ∈ tree.walk) :
    ∃ above node, program.Stands above node ∧ node.handle = entry.1 ∧
      above.length = entry.2 := by
  obtain ⟨handles, way, isDepth⟩ := exists_wayTo_of_visit (by
    rw [bears.root]
    exact List.forall_mem_singleton.mpr ⟨[], .root bears.root, rfl⟩) entry entryIn
  obtain ⟨above, node, stands, rfl, atHandle⟩ := bears.exists_stands way
  exact ⟨above, node, stands, atHandle, by rw [← isDepth, List.length_map]⟩

theorem Bears.length_above_eq (bears : tree.Bears program)
    {above others : List (Located α)} {node : Located α}
    (stands : program.Stands above node) (standsToo : program.Stands others node) :
    above.length = others.length := by
  have chain : tree.parentIds.chain (above.length + others.length + 1)
      (some node.identity) = node.identity :: above.map Program.identity :=
    bears.chain_eq stands (by omega)
  rw [bears.chain_eq standsToo (by omega), List.cons.injEq] at chain
  simpa using congrArg List.length chain.2.symm

variable [Scalar α] {settings : LayoutSettings α}

omit [Scalar α] in
theorem Bears.exists_of_hasNode (bears : tree.Bears program) {handle : Handle}
    {stored : Node α} (hasNode : tree.HasNode handle stored) :
    ∃ node ∈ program.preorder, node.handle = handle ∧ node.node = stored := by
  obtain ⟨reached, isStored⟩ := hasNode
  obtain ⟨node, nodeIn, rfl⟩ := bears.reaches_iff.mp reached
  rw [bears.holds node nodeIn] at isStored
  exact ⟨node, nodeIn, rfl, Option.some.inj isStored⟩

/-- A node of the diagram and an entry of the walk with the same node of the
program tell the same of it. -/
theorem Bears.shows (bears : tree.Bears program) {node : Located α}
    (nodeIn : node ∈ program.preorder) {entry : Handle × Nat}
    (entryIn : entry ∈ tree.walk) {shown : DiagramNode α}
    (shownIn : shown ∈
      (Diagram.unmarked (program.written.framed settings)).nodes)
    (atHandle : entry.1 = node.handle) (isShown : shown.id = node.identity) :
    tree.Shows entry shown := by
  obtain ⟨above, same, stands, isSame, tag, text, depth, parent⟩ :=
    Program.exists_stands_of_mem_nodes shownIn
  obtain rfl := bears.eq_of_identity stands.mem_preorder nodeIn
    (isSame.symm.trans isShown)
  obtain ⟨others, same, standsToo, isSame, isDepth⟩ := bears.depth_eq entryIn
  obtain rfl := bears.eq_of_handle standsToo.mem_preorder nodeIn
    (isSame.trans atHandle)
  constructor
  · refine ⟨same.node, by rw [atHandle, bears.holds same nodeIn], isShown, ?_, text⟩
    rw [tag, Node.tag]
    exact (Program.tag_construct same).symm
  · rw [depth, ← isDepth, bears.length_above_eq stands standsToo]
  · rw [atHandle, bears.lookup_handle stands]
    cases stands with
    | root => exact ⟨bears.root, parent⟩
    | @child above upper _ upperStands isChild =>
        have notRoot : tree.root ≠ some same.handle := by
          intro isRoot
          have rootStands : program.Stands [] program := .root
          have atRoot := bears.lookup_handle rootStands
          have inside := bears.lookup_handle (upperStands.child isChild)
          rw [bears.root] at isRoot
          rw [Option.some.inj isRoot, inside] at atRoot
          cases atRoot
        exact ⟨notRoot, upper.node,
          bears.holds upper upperStands.mem_preorder, parent⟩

variable (settings) in
theorem ids_nodes_unmarked (program : Located α) :
    (Diagram.unmarked (program.written.framed settings)).nodes.map DiagramNode.id =
      program.identities := by
  rw [Program.ids_nodes, Program.ids_written]

variable (settings) in
/-- The diagram has the children of a node in their order. -/
theorem Bears.children_unmarked (bears : tree.Bears program)
    {node : Located α} (nodeIn : node ∈ program.preorder) :
    ((Diagram.unmarked (program.written.framed settings)).children
      node.identity).map DiagramNode.id = node.children.map Program.identity := by
  have shownSublist : (((Diagram.unmarked
      (program.written.framed settings)).children node.identity).map
        DiagramNode.id).Sublist program.identities := by
    rw [← ids_nodes_unmarked settings]
    exact (List.filter_sublist).map _
  have childrenSublist : (node.children.map Program.identity).Sublist
      program.identities :=
    (node.children_sublist_preorder.trans (Program.preorder_sublist nodeIn)).map _
  refine (bears.identitiesNodup.perm_iff_eq_of_sublist shownSublist
    childrenSublist).mp ?_
  refine (List.perm_ext_iff_of_nodup
    (bears.identitiesNodup.sublist shownSublist)
    (bears.identitiesNodup.sublist childrenSublist)).mpr fun id => ?_
  simp only [List.mem_map, Diagram.children, List.mem_filter, decide_eq_true_eq]
  constructor
  · rintro ⟨shown, ⟨shownIn, isParent⟩, rfl⟩
    obtain ⟨above, inner, stands, isShown, -, -, -, parent⟩ :=
      Program.exists_stands_of_mem_nodes shownIn
    rw [isParent] at parent
    cases stands with
    | root => cases parent
    | @child above upper _ upperStands isChild =>
        obtain rfl := bears.eq_of_identity nodeIn upperStands.mem_preorder
          (Option.some.inj parent)
        exact ⟨inner, isChild, isShown.symm⟩
  · rintro ⟨child, childIn, rfl⟩
    have writtenIn : node.written ∈ program.written.preorder := by
      rw [Program.written, Program.preorder_map]
      exact List.mem_map_of_mem nodeIn
    have childWritten : child.written ∈ node.written.children := by
      rw [Program.children_written]
      exact List.mem_map_of_mem childIn
    obtain ⟨shown, shownIn, isShown, isParent⟩ :=
      Program.exists_node_of_child settings writtenIn childWritten
    rw [Program.label_written] at isShown isParent
    exact ⟨shown, ⟨shownIn, isParent⟩, isShown⟩

theorem Bears.lists (bears : tree.Bears program) :
    (Diagram.unmarked (program.written.framed settings)).Lists tree := by
  constructor
  · exact forall₂_of_map_eq bears.walk_eq (ids_nodes_unmarked settings program)
      fun node nodeIn entry entryIn shown shownIn =>
        bears.shows nodeIn entryIn shownIn
  · rw [bears.walk_eq]
    exact bears.handlesNodup
  · intro handle
    rw [bears.walk_eq, bears.reaches_iff]
    exact List.mem_map
  · rw [ids_nodes_unmarked]
    exact bears.identitiesNodup
  · intro id
    rw [ids_nodes_unmarked]
    constructor
    · intro idIn
      obtain ⟨node, nodeIn, rfl⟩ := List.mem_map.mp idIn
      exact ⟨node.handle, node.node, bears.hasNode nodeIn, rfl⟩
    · rintro ⟨handle, stored, hasNode, rfl⟩
      obtain ⟨node, nodeIn, rfl, rfl⟩ := bears.exists_of_hasNode hasNode
      exact List.mem_map_of_mem (f := Program.identity) nodeIn
  · intro handle stored hasNode
    obtain ⟨node, nodeIn, rfl, rfl⟩ := bears.exists_of_hasNode hasNode
    have holds : tree.Holds node := fun inner innerIn =>
      bears.holds inner (Program.mem_preorder_trans nodeIn innerIn)
    refine forall₂_of_map_eq holds.childHandles_eq
      (bears.children_unmarked settings nodeIn) ?_
    intro child childIn place _ shown _ atHandle isShown
    exact ⟨child.node, by rw [atHandle, (holds.child childIn).root], isShown⟩

end Tree

namespace Diagram

variable {α : Type} {diagram : Diagram α} {tree : Tree α}

/-- Marks do not matter for what is listed. -/
theorem Lists.markReachable (lists : diagram.Lists tree) (starts : List NodeId) :
    (diagram.markReachable starts).Lists tree where
  nodes := by
    refine List.forall₂_map_right_iff.mpr (lists.nodes.imp ?_)
    exact fun _ _ shows =>
      ⟨shows.stored, shows.depth, shows.parent⟩
  walkedOnce := lists.walkedOnce
  walked := lists.walked
  listedOnce := by
    rw [ids_markReachable]
    exact lists.listedOnce
  listed := by
    rw [ids_markReachable]
    exact lists.listed
  children := by
    intro handle node hasNode
    rw [children_markReachable]
    exact List.forall₂_map_right_iff.mpr (lists.children handle node hasNode)

end Diagram

namespace Tree

variable {α : Type} [Scalar α]

/-- A tree with a layout passes validation. -/
theorem validate_of_layout {settings : LayoutSettings α} {tree : Tree α}
    {diagram : Diagram α} (laidOut : tree.layout settings = .ok diagram) :
    tree.validate settings.maxDepth = .ok () := by
  cases checked : tree.validate settings.maxDepth with
  | ok => rfl
  | error defect =>
      rw [layout, layoutCached_of_defect checked] at laidOut
      cases laidOut

/-- The diagram of a tree lists the nodes that the tree reaches as the walk meets
them. -/
theorem layout_lists {settings : LayoutSettings α} {tree : Tree α}
    {diagram : Diagram α} (laidOut : tree.layout settings = .ok diagram) :
    diagram.Lists tree := by
  have accepted := validate_of_layout laidOut
  obtain ⟨program, stores⟩ := exists_stores accepted
  rw [eq_of_layout (program_eq accepted stores) stores.ids_nodup laidOut]
  exact stores.toBears.lists.markReachable _

/-- Children are stored before and after their parents, and the first node, which
no other node refers to, has the identity of a node that is reached. -/
def scatteredTree : Tree Rat where
  nodes := #[⟨⟨"s", "spare", none⟩, .statement .expression⟩,
    ⟨⟨"w", "while", none⟩, .loop .whileHolds (some 4)⟩,
    ⟨⟨"root", "", none⟩, .block [3, 1]⟩,
    ⟨⟨"s", "step", none⟩, .statement .expression⟩,
    ⟨⟨"b", "", none⟩, .block []⟩]
  root := some 2

theorem layout_lists_scatteredTree : ∃ diagram,
    scatteredTree.layout .standard = .ok diagram ∧
      diagram.Lists scatteredTree := by
  have accepted : scatteredTree.validate
      (LayoutSettings.standard : LayoutSettings Rat).maxDepth = .ok () := by
    cbv
  obtain ⟨diagram, laidOut⟩ := exists_standard_layout accepted
  exact ⟨diagram, laidOut, layout_lists laidOut⟩

end Tree

end Flowchart
