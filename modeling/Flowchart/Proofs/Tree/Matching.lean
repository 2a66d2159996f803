import Flowchart.Proofs.Tree.Whole

/-!
# Trees that reach the same nodes elsewhere

Two trees match if what the one reaches can be paired with what the other one
reaches: roots with roots, and every node with one that is like it.  Where both
are well formed, this pairs the nodes of the programs that they store, and the
children of each node in order.
-/

namespace Flowchart

/-! ## Handles that are changed -/

namespace Slot

/-- The same place filled with the handle that stands for the one in it. -/
def rename (image : Handle → Handle) (slot : Slot) : Slot :=
  { slot with child := slot.child.map image }

end Slot

namespace Construct

/-- The same construct with every handle changed. -/
def rename (image : Handle → Handle) : Construct → Construct
  | .statement kind => .statement kind
  | .block members => .block (members.map image)
  | .decision consequent alternative =>
      .decision (consequent.map image) (alternative.map image)
  | .selection arms =>
      .selection (arms.map fun arm => { arm with body := arm.body.map image })
  | .loop kind body => .loop kind (body.map image)
  | .result => .result
  | .container kind body => .container kind (body.map image)
  | .typeDefinition => .typeDefinition

theorem slots_rename (image : Handle → Handle) (construct : Construct) :
    (construct.rename image).slots =
      construct.slots.map (Slot.rename image) := by
  cases construct with
  | block members =>
      simp [rename, slots, List.mapIdx_eq_zipIdx_map, List.zipIdx_map,
        Slot.rename, Function.comp_def]
  | selection arms =>
      simp [rename, slots, List.mapIdx_eq_zipIdx_map, List.zipIdx_map,
        Slot.rename, Function.comp_def]
  | _ => rfl

/-- With its places the children of a construct are known. -/
theorem children_of_slots {image : Handle → Handle} {construct other : Construct}
    (same : other.slots = construct.slots.map (Slot.rename image)) :
    other.children = construct.children.map fun child =>
      (child.1, image child.2) := by
  rw [children, children, same, List.filterMap_map, List.map_filterMap]
  refine List.filterMap_congr fun slot _ => ?_
  simp only [Function.comp_apply, Slot.rename, Option.map_map]
  rfl

end Construct

/-! ## Trees -/

namespace Tree

variable {α : Type}

/-- Every handle that the first tree reaches stands for one that the second tree
reaches, and the nodes there are alike. -/
structure Matches (first second : Tree α) (image : Handle → Handle)
    (alike : Node α → Node α → Prop) : Prop where
  reached : Set.BijOn image {handle | first.Reaches handle}
    {handle | second.Reaches handle}
  root : second.root = first.root.map image
  node : ∀ handle node, first.HasNode handle node →
    ∃ other, second.node? (image handle) = some other ∧ alike node other

section

variable {tree : Tree α} {program : Located α}

/-- A way leads down along nodes that the tree bears. -/
theorem Bears.exists_stands (bears : tree.Bears program)
    {above : List Handle} {handle : Handle} (way : tree.WayTo above handle) :
    ∃ nodes node, program.Stands nodes node ∧
      nodes.map Program.handle = above ∧ node.handle = handle := by
  induction way with
  | root isRoot =>
      refine ⟨[], program, .root, rfl, ?_⟩
      exact Option.some.inj (bears.root.symm.trans isRoot)
  | @child above place child _ fills ih =>
      obtain ⟨nodes, holder, stands, rfl, atHolder⟩ := ih
      have holderHolds : tree.Holds holder := fun inner innerIn =>
        bears.holds inner (Program.mem_preorder_trans stands.mem_preorder innerIn)
      obtain ⟨entry, entryIn, isEntry⟩ := List.mem_map.mp fills
      have childIn : child ∈ holder.children.map Program.handle := by
        rw [← holderHolds.childHandles_eq, atHolder]
        exact List.mem_map.mpr ⟨entry, entryIn, congrArg Prod.snd isEntry⟩
      obtain ⟨node, nodeIn, atChild⟩ := List.mem_map.mp childIn
      refine ⟨holder :: nodes, node, stands.child nodeIn, ?_, atChild⟩
      rw [List.map_cons, atHolder]

/-- A tree reaches the nodes that it stores and no others. -/
theorem Bears.reaches_iff (bears : tree.Bears program) {handle : Handle} :
    tree.Reaches handle ↔ ∃ node ∈ program.preorder, node.handle = handle := by
  constructor
  · rintro ⟨above, way⟩
    obtain ⟨nodes, node, stands, -, atHandle⟩ := bears.exists_stands way
    exact ⟨node, stands.mem_preorder, atHandle⟩
  · rintro ⟨node, nodeIn, rfl⟩
    obtain ⟨above, stands⟩ := Program.Stands.of_mem_preorder nodeIn
    exact ⟨_, bears.holds.wayTo bears.root stands⟩

theorem Bears.hasNode (bears : tree.Bears program) {node : Located α}
    (nodeIn : node ∈ program.preorder) :
    tree.HasNode node.handle node.node :=
  ⟨bears.reaches_iff.mpr ⟨node, nodeIn, rfl⟩, bears.holds node nodeIn⟩

theorem Bears.eq_of_handle (bears : tree.Bears program)
    {left right : Located α} (leftIn : left ∈ program.preorder)
    (rightIn : right ∈ program.preorder) (same : left.handle = right.handle) :
    left = right :=
  List.inj_on_of_nodup_map bears.handlesNodup leftIn rightIn same

end

namespace Matches

variable {first second : Tree α} {image : Handle → Handle}
  {alike : Node α → Node α → Prop} {program otherProgram : Located α}

theorem exists_node (paired : first.Matches second image alike)
    (bears : first.Bears program)
    (otherBears : second.Bears otherProgram) {node : Located α}
    (nodeIn : node ∈ program.preorder) :
    ∃ other ∈ otherProgram.preorder, other.handle = image node.handle ∧
      alike node.node other.node := by
  have reaches : second.Reaches (image node.handle) :=
    paired.reached.mapsTo (bears.hasNode nodeIn).1
  obtain ⟨other, otherIn, atImage⟩ := otherBears.reaches_iff.mp reaches
  obtain ⟨found, isFound, isAlike⟩ :=
    paired.node _ _ (bears.hasNode nodeIn)
  rw [← atImage, otherBears.holds other otherIn] at isFound
  obtain rfl := Option.some.inj isFound
  exact ⟨other, otherIn, atImage, isAlike⟩

/-- Every node of the second tree stands for one of the first tree. -/
theorem exists_origin (paired : first.Matches second image alike)
    (bears : first.Bears program)
    (otherBears : second.Bears otherProgram) {other : Located α}
    (otherIn : other ∈ otherProgram.preorder) :
    ∃ node ∈ program.preorder, other.handle = image node.handle := by
  obtain ⟨handle, reached, isImage⟩ :=
    paired.reached.surjOn (otherBears.hasNode otherIn).1
  obtain ⟨node, nodeIn, rfl⟩ := bears.reaches_iff.mp reached
  exact ⟨node, nodeIn, isImage.symm⟩

/-- Well-formed trees match if their walks do. -/
theorem of_walk (bears : first.Bears program)
    (otherBears : second.Bears otherProgram)
    (walks : second.walk.map Prod.fst = (first.walk.map Prod.fst).map image)
    (root : second.root = first.root.map image)
    (node : ∀ handle ∈ first.walk.map Prod.fst, ∀ node,
      first.node? handle = some node →
        ∃ other, second.node? (image handle) = some other ∧ alike node other) :
    first.Matches second image alike := by
  have reaches : ∀ {tree : Tree α} {program : Located α},
      tree.Bears program → ∀ handle,
        tree.Reaches handle ↔ handle ∈ tree.walk.map Prod.fst := by
    intro tree program bears handle
    rw [bears.walk_eq, bears.reaches_iff]
    exact List.mem_map.symm
  refine ⟨⟨?mapsTo, ?injective, ?onto⟩, root, ?node⟩
  case mapsTo =>
    intro handle reached
    refine (reaches otherBears _).mpr (walks ▸ ?_)
    exact List.mem_map_of_mem ((reaches bears _).mp reached)
  case injective =>
    intro handle reached other otherReached same
    have distinct : ((first.walk.map Prod.fst).map image).Nodup := by
      rw [← walks, otherBears.walk_eq]
      exact otherBears.handlesNodup
    exact List.inj_on_of_nodup_map distinct ((reaches bears _).mp reached)
      ((reaches bears _).mp otherReached) same
  case onto =>
    intro handle reached
    have visited := (reaches otherBears _).mp reached
    rw [walks] at visited
    obtain ⟨origin, originIn, isImage⟩ := List.mem_map.mp visited
    exact ⟨origin, (reaches bears _).mpr originIn, isImage⟩
  case node =>
    rintro handle stored ⟨reached, isStored⟩
    exact node handle ((reaches bears _).mp reached) stored isStored

/-- The programs stand for each other, root and root. -/
theorem handle_eq (paired : first.Matches second image alike)
    (bears : first.Bears program)
    (otherBears : second.Bears otherProgram) :
    otherProgram.handle = image program.handle := by
  have isRoot := paired.root
  rw [bears.root, otherBears.root] at isRoot
  exact Option.some.inj isRoot

end Matches

end Tree

namespace Program

variable {α : Type} {image : Handle → Handle} {node other : Located α}

/-- The children of nodes with the same places stand for each other. -/
theorem handles_of_slots
    (same : other.construct.slots =
      node.construct.slots.map (Slot.rename image)) :
    other.children.map handle =
      (node.children.map handle).map image := by
  rw [← handles_construct, Construct.children_of_slots same,
    ← handles_construct, List.map_map, List.map_map]
  rfl

end Program

end Flowchart
