import Flowchart.Proofs.Program.Storing
import Flowchart.Proofs.Tree.Reading
import Flowchart.Proofs.Tree.Verdict

/-!
# Trees that are whole

A tree that stores one program and nothing else has no loose or shared node:
every handle but the root's is held once, and the walk meets each of them.
-/

namespace Flowchart

/-- A defect of what a node is, not of how the nodes hang together. -/
inductive Defect.IsOfContent : Defect → Prop where
  | duplicateId (id : NodeId) : IsOfContent (.duplicateId id)
  | invalidHint (id : NodeId) : IsOfContent (.invalidHint id)
  | emptySelection (id : NodeId) : IsOfContent (.emptySelection id)
  | misplacedDeclaration (id : NodeId) (tag : Tag) :
      IsOfContent (.misplacedDeclaration id tag)

namespace Tree

variable {α : Type}

/-- Every node that is stored hangs in one place below the root, no required
place is empty, and no node lies deeper than given. -/
structure IsWhole (tree : Tree α) (depth : Nat) : Prop where
  rooted : ∃ root node, tree.root = some root ∧ tree.node? root = some node
  heldOnce : ∀ handle < tree.size, tree.root ≠ some handle →
    ∃! place : Place, tree.Fills place handle
  rootFree : ∀ root place, tree.root = some root → ¬ tree.Fills place root
  stored : ∀ place child, tree.Fills place child → child < tree.size
  reached : ∀ handle < tree.size, tree.Reaches handle
  walked : (tree.walk.map Prod.fst).Perm (List.range tree.size)
  complete : ∀ handle node slot, tree.node? handle = some node →
    slot ∈ node.construct.slots → slot.required = true → slot.child ≠ none
  shallow : ∀ above handle, tree.WayTo above handle → above.length ≤ depth
  walkedShallow : ∀ entry ∈ tree.walk, entry.2 ≤ depth

end Tree

namespace Program

variable {α : Type}

/-- The handles of the children of all nodes, parents before children. -/
def childHandles (program : Located α) : List Handle :=
  program.preorder.flatMap fun node => node.children.map handle

theorem childHandles_eq (program : Located α) :
    program.childHandles =
      program.children.map handle ++ program.children.flatMap childHandles := by
  rw [childHandles, preorder_eq, List.flatMap_cons, List.flatMap_assoc]
  rfl

/-- Every node but the root is a child of one node. -/
theorem handles_perm (program : Located α) :
    program.handles.Perm (program.handle :: program.childHandles) := by
  induction program using childrenInduction with
  | step program ih =>
    rw [handles_eq, childHandles_eq]
    refine List.Perm.cons _ ?_
    have below : (program.children.flatMap handles).Perm
        (program.children.flatMap fun child => child.handle :: child.childHandles) :=
      List.Perm.flatMap_left _ ih
    exact below.trans (List.map_append_flatMap_perm _ _ _).symm

theorem exists_place {program child : Located α}
    (childIn : child ∈ program.children) :
    ∃ place, (place, child.handle) ∈
      program.places.zip (program.children.map handle) := by
  obtain ⟨index, inside, rfl⟩ := List.mem_iff_getElem.mp childIn
  have placeInside : index < program.places.length := by
    rwa [length_places]
  refine ⟨program.places[index], List.mem_iff_getElem.mpr ⟨index, ?_, ?_⟩⟩
  · simpa using ⟨placeInside, inside⟩
  · simp

/-- Every required place of a stored node is filled. -/
theorem slots_filled (program : Located α) :
    ∀ slot ∈ program.construct.slots, slot.required = true →
      slot.child ≠ none := by
  intro slot slotIn required
  rcases filled_or_optional slotIn with ⟨child, -, isChild⟩ | ⟨-, optional⟩
  · rw [isChild]
    exact Option.some_ne_none _
  · rw [required] at optional
    cases optional

end Program

namespace Tree

variable {α : Type} {tree : Tree α} {program : Located α}

theorem Fills.holder_lt {place : Place} {child : Handle}
    (fills : tree.Fills place child) : place.1 < tree.size := by
  by_contra outside
  have noNode : tree.node? place.1 = none :=
    Array.getElem?_eq_none (Nat.le_of_not_lt outside)
  unfold Fills filled children at fills
  rw [noNode] at fills
  cases fills

/-- Whatever is visited lies as deep as the walk says. -/
theorem exists_wayTo_of_visit {unseen : List Handle}
    {pending : List (Handle × Nat)}
    (ways : ∀ entry ∈ pending, ∃ above, tree.WayTo above entry.1 ∧
      above.length = entry.2) :
    ∀ entry ∈ tree.visit unseen pending, ∃ above, tree.WayTo above entry.1 ∧
      above.length = entry.2 := by
  fun_induction visit tree unseen pending with
  | case1 unseen => simp
  | case2 unseen handle depth rest _ below ih =>
      obtain ⟨⟨above, way, isDepth⟩, restWays⟩ := List.forall_mem_cons.mp ways
      refine List.forall_mem_cons.mpr ⟨⟨above, way, isDepth⟩, ih ?_⟩
      refine List.forall_mem_append.mpr ⟨?_, restWays⟩
      intro entry entryIn
      obtain ⟨⟨name, child⟩, childIn, rfl⟩ := List.mem_map.mp entryIn
      have fills : tree.Fills (handle, name) child :=
        List.mem_map.mpr ⟨(name, child), childIn, rfl⟩
      exact ⟨handle :: above, way.child fills, by simp [isDepth]⟩
  | case3 unseen handle depth rest _ ih =>
      exact ih (List.forall_mem_cons.mp ways).2

/-- Where every node is reached, it does not matter that a place is. -/
theorem unshared_of_reached
    (heldOnce : ∀ handle < tree.size, tree.root ≠ some handle →
      ∃! place : Place, tree.Fills place handle)
    (rootFree : ∀ root place, tree.root = some root → ¬ tree.Fills place root)
    (stored : ∀ place child, tree.Fills place child → child < tree.size)
    (reached : ∀ handle < tree.size, tree.Reaches handle) : tree.Unshared where
  heldOnce := by
    intro handle ⟨above, way⟩ notRoot
    have inside : handle < tree.size := by
      cases way with
      | root isRoot => exact absurd isRoot notRoot
      | child way fills => exact stored _ _ fills
    obtain ⟨place, fills, only⟩ := heldOnce handle inside notRoot
    exact ⟨place, ⟨reached place.1 fills.holder_lt, fills⟩,
      fun other otherFills => only other otherFills.2⟩
  rootFree := fun root place isRoot _ => rootFree root place isRoot

/-- The nodes that a node stands below are the way to it. -/
theorem Holds.wayTo (holds : tree.Holds program)
    (isRoot : tree.root = some program.handle) {above : List (Located α)}
    {node : Located α} (stands : program.Stands above node) :
    tree.WayTo (above.map Program.handle) node.handle := by
  induction stands with
  | root => exact .root isRoot
  | @child above parent node parentStands nodeIn ih =>
      obtain ⟨place, placeIn⟩ := Program.exists_place nodeIn
      have parentHolds : tree.Holds parent := fun inner innerIn =>
        holds inner (Program.mem_preorder_trans parentStands.mem_preorder innerIn)
      rw [← parentHolds.children_eq] at placeIn
      have fills : tree.Fills (parent.handle, place) node.handle :=
        List.mem_map.mpr ⟨_, placeIn, rfl⟩
      exact ih.child fills

namespace Contains

theorem handles_nodup (contains : tree.Contains program) :
    program.handles.Nodup :=
  contains.handles_perm.nodup_iff.mpr List.nodup_range

theorem mem_handles (contains : tree.Contains program) {handle : Handle} :
    handle ∈ program.handles ↔ handle < tree.size := by
  rw [contains.handles_perm.mem_iff, List.mem_range]

theorem exists_node (contains : tree.Contains program) {handle : Handle}
    (inside : handle < tree.size) :
    ∃ node ∈ program.preorder, node.handle = handle :=
  List.mem_map.mp (contains.mem_handles.mpr inside)

theorem filled_eq (contains : tree.Contains program) :
    (program.handles.flatMap tree.filled).map Prod.snd = program.childHandles := by
  rw [List.map_flatMap, Program.handles, List.flatMap_map, Program.childHandles]
  refine List.flatMap_congr fun node nodeIn => ?_
  rw [filled, List.map_map]
  have holds : tree.Holds node := fun inner innerIn =>
    contains.holds inner (Program.mem_preorder_trans nodeIn innerIn)
  exact holds.childHandles_eq

/-- The handles that the places of the tree hold. -/
theorem held_perm (contains : tree.Contains program) :
    program.handles.Perm (program.handle ::
      (program.handles.flatMap tree.filled).map Prod.snd) := by
  rw [contains.filled_eq]
  exact program.handles_perm

theorem mem_filled_of_fills (contains : tree.Contains program) {place : Place}
    {child : Handle} (fills : tree.Fills place child) :
    (place, child) ∈ program.handles.flatMap tree.filled := by
  exact List.mem_flatMap.mpr
    ⟨place.1, contains.mem_handles.mpr fills.holder_lt, fills⟩

theorem wayTo (contains : tree.Contains program) {above : List (Located α)}
    {node : Located α} (stands : program.Stands above node) :
    tree.WayTo (above.map Program.handle) node.handle :=
  contains.holds.wayTo contains.root stands

theorem unshared (contains : tree.Contains program) :
    (∀ handle < tree.size, tree.root ≠ some handle →
      ∃! place : Place, tree.Fills place handle) ∧
    ∀ root place, tree.root = some root → ¬ tree.Fills place root := by
  obtain ⟨rootNotHeld, heldNodup⟩ := List.nodup_cons.mp
    (contains.held_perm.nodup_iff.mp contains.handles_nodup)
  constructor
  · intro handle inside notRoot
    have isHeld := contains.held_perm.mem_iff.mp
      (contains.mem_handles.mpr inside)
    rcases List.mem_cons.mp isHeld with rfl | isHeld
    · exact absurd contains.root notRoot
    · obtain ⟨⟨place, child⟩, entryIn, rfl⟩ := List.mem_map.mp isHeld
      obtain ⟨holder, -, fills⟩ := List.mem_flatMap.mp entryIn
      refine ⟨place, (mem_filled.mp fills).2, fun other otherFills => ?_⟩
      have same := List.inj_on_of_nodup_map heldNodup
        (contains.mem_filled_of_fills otherFills) entryIn rfl
      exact congrArg Prod.fst same
  · intro root place isRoot fills
    obtain rfl := Option.some.inj (contains.root.symm.trans isRoot)
    exact rootNotHeld (List.mem_map_of_mem (contains.mem_filled_of_fills fills))

theorem stored (contains : tree.Contains program) {place : Place} {child : Handle}
    (fills : tree.Fills place child) : child < tree.size := by
  have isHeld := List.mem_map_of_mem (f := Prod.snd)
    (contains.mem_filled_of_fills fills)
  exact contains.mem_handles.mp
    (contains.held_perm.mem_iff.mpr (List.mem_cons_of_mem _ isHeld))

theorem reaches (contains : tree.Contains program) {handle : Handle}
    (inside : handle < tree.size) : tree.Reaches handle := by
  obtain ⟨node, nodeIn, rfl⟩ := contains.exists_node inside
  obtain ⟨above, stands⟩ := Program.Stands.of_mem_preorder nodeIn
  exact ⟨_, contains.wayTo stands⟩

theorem inside_of_wayTo (contains : tree.Contains program) {above : List Handle}
    {handle : Handle} (way : tree.WayTo above handle) : handle < tree.size := by
  cases way with
  | root isRoot =>
      obtain rfl := Option.some.inj (contains.root.symm.trans isRoot)
      refine contains.mem_handles.mp ?_
      rw [Program.handles_eq]
      exact List.mem_cons_self
  | child way fills => exact contains.stored fills

theorem toUnshared (contains : tree.Contains program) : tree.Unshared :=
  unshared_of_reached contains.unshared.1 contains.unshared.2
    (fun _ _ => contains.stored) fun _ => contains.reaches

/-- There is one way to each node, along the nodes above it. -/
theorem length_above_le (contains : tree.Contains program) {depth : Nat}
    (shallow : program.IsShallow depth) {above : List Handle} {handle : Handle}
    (way : tree.WayTo above handle) : above.length ≤ depth := by
  obtain ⟨node, nodeIn, rfl⟩ :=
    contains.exists_node (contains.inside_of_wayTo way)
  obtain ⟨nodes, stands⟩ := Program.Stands.of_mem_preorder nodeIn
  rw [way.unique contains.toUnshared (contains.wayTo stands), List.length_map]
  exact shallow.length_le stands

theorem isWhole (contains : tree.Contains program) {depth : Nat}
    (shallow : program.IsShallow depth) : tree.IsWhole depth where
  rooted := ⟨program.handle, program.node, contains.root, contains.holds.root⟩
  heldOnce := contains.unshared.1
  rootFree := contains.unshared.2
  stored := fun _ _ => contains.stored
  reached := fun _ => contains.reaches
  walked := by
    rw [contains.holds.walk_eq contains.root contains.handles_nodup]
    exact contains.handles_perm
  complete := by
    intro handle node slot isNode
    have inside : handle < tree.size := (Array.getElem?_eq_some_iff.mp isNode).1
    obtain ⟨located, locatedIn, rfl⟩ := contains.exists_node inside
    rw [contains.holds located locatedIn] at isNode
    obtain rfl := Option.some.inj isNode
    exact located.slots_filled slot
  shallow := fun _ _ => contains.length_above_le shallow
  walkedShallow := by
    intro entry entryIn
    obtain ⟨above, way, isDepth⟩ := exists_wayTo_of_visit (by
      rw [contains.root]
      exact List.forall_mem_singleton.mpr ⟨[], .root contains.root, rfl⟩)
      entry entryIn
    rw [← isDepth]
    exact contains.length_above_le shallow way

end Contains

/-! ## What can still be wrong -/

variable [Scalar α]

/-- What is reported of a tree that has a root is there. -/
theorem hasDefect_of_validate {root : Handle} {node : Node α} {limit : Nat}
    {defect : Defect} (isRoot : tree.root = some root)
    (isNode : tree.node? root = some node)
    (refused : tree.validate limit = .error defect) :
    tree.HasDefect limit defect := by
  have begins : ∃ entered, tree.Checks limit root entered
      (List.range tree.size) [] [] [.enter root []] :=
    ⟨[], .begins isRoot isNode⟩
  have decided := check_decides isRoot isNode begins
  rw [validate, isRoot] at refused
  simp only [isNode, Option.isNone_some, Bool.false_eq_true, if_false] at refused
  rw [refused] at decided
  exact decided

/-- A whole tree that is not too deep fails validation only for what its nodes
are. -/
theorem IsWhole.isOfContent {depth limit : Nat} {defect : Defect}
    (whole : tree.IsWhole depth) (le : depth ≤ limit)
    (has : tree.HasDefect limit defect) : defect.IsOfContent := by
  obtain ⟨root, rootNode, isRoot, isNode⟩ := whole.rooted
  have unshared : tree.Unshared := unshared_of_reached whole.heldOnce
    whole.rootFree whole.stored whole.reached
  cases defect with
  | duplicateId id => exact .duplicateId id
  | invalidHint id => exact .invalidHint id
  | emptySelection id => exact .emptySelection id
  | misplacedDeclaration id tag => exact .misplacedDeclaration id tag
  | emptyTree =>
      rw [has root isRoot] at isNode
      cases isNode
  | danglingReference id name child =>
      obtain ⟨handle, node, -, -, fills, dangling⟩ := has
      have inside := whole.stored _ child fills
      exact absurd inside (Nat.not_lt.mpr (Array.getElem?_eq_none_iff.mp dangling))
  | sharedNode id =>
      obtain ⟨handle, node, above, -, -, -, -, first, second, different,
        ⟨-, firstFills⟩, -, secondFills⟩ := has
      have notRoot : tree.root ≠ some handle := fun isRoot =>
        whole.rootFree handle first isRoot firstFills
      have once := whole.heldOnce handle (whole.stored _ _ firstFills) notRoot
      exact absurd (once.unique firstFills secondFills) different
  | cycle id =>
      obtain ⟨handle, node, above, -, -, way, onWay⟩ := has
      obtain ⟨shorter, found, isShorter⟩ := way.of_mem onWay
      rw [way.unique unshared found] at isShorter
      exact absurd isShorter (Nat.lt_irrefl _)
  | missingSlot id tag name =>
      obtain ⟨handle, node, slot, ⟨-, isNode⟩, -, -, slotIn, -, required, empty⟩ :=
        has
      exact absurd empty (whole.complete handle node slot isNode slotIn required)
  | tooDeep id depth =>
      obtain ⟨-, handle, node, above, way, -, -, deep⟩ := has
      have notDeep := whole.shallow above handle way
      omega

omit [Scalar α] in
/-- Distinct identities belong to nodes at different handles. -/
theorem handle_eq_of_id (distinct : (tree.nodes.toList.map fun node => node.id).Nodup)
    {handle other : Handle} {node otherNode : Node α}
    (isNode : tree.node? handle = some node)
    (isOther : tree.node? other = some otherNode)
    (same : node.id = otherNode.id) : handle = other := by
  have idAt : ∀ {place : Handle} {found : Node α}, tree.node? place = some found →
      (tree.nodes.toList.map fun node => node.id)[place]? = some found.id := by
    intro place found isFound
    rw [List.getElem?_map, Array.getElem?_toList]
    exact congrArg (Option.map fun node => node.id) isFound
  have inside : handle < (tree.nodes.toList.map fun node => node.id).length := by
    rw [List.length_map]
    exact (Array.getElem?_eq_some_iff.mp isNode).1
  refine (List.getElem?_inj inside distinct).mp ?_
  rw [idAt isNode, idAt isOther, same]

end Tree

end Flowchart
