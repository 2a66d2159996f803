import Flowchart.Program.Stored
import Flowchart.Proofs.Program.Structure
import Flowchart.Tree.Validity

/-!
# Programs that lie in a tree

A tree that is well formed stores one program.  Here a program carries the
handles of its nodes, and `Tree.Holds` says that the tree stores exactly these
nodes at these handles; reading the program back from its root then gives the
program, and the walk visits its nodes in order.
-/

namespace Flowchart

/-- A program whose nodes know where they are stored. -/
abbrev Located (α : Type) : Type := Program (Handle × Label α)

namespace Program

variable {α L : Type}

def handle (program : Located α) : Handle := program.label.1

def identity (program : Located α) : NodeId := program.label.2.id

/-- The program without its handles. -/
def written (program : Located α) : Program (Label α) := program.map Prod.snd

/-- The construct of a node with the handles of its children. -/
def construct : Located α → Construct
  | .statement _ kind => .statement kind
  | .block _ members => .block (members.map handle)
  | .decision _ consequent alternative =>
      .decision (some consequent.handle) (alternative.map handle)
  | .selection _ arms =>
      .selection (arms.map fun arm => ⟨arm.1, some arm.2.handle⟩)
  | .loop _ kind body => .loop kind (some body.handle)
  | .result _ => .result
  | .container _ kind body => .container kind (some body.handle)
  | .typeDefinition _ => .typeDefinition

def node (program : Located α) : Node α :=
  { toLabel := program.label.2, construct := program.construct }

/-- The names of the places that the children fill. -/
def places : Program L → List SlotName
  | .block _ members => (List.range members.length).map .member
  | .decision _ _ none => [.consequent]
  | .decision _ _ (some _) => [.consequent, .alternative]
  | .selection _ arms => (List.range arms.length).map .arm
  | .loop _ _ _ | .container _ _ _ => [.body]
  | .statement _ _ | .result _ | .typeDefinition _ => []

theorem length_places (program : Program L) :
    program.places.length = program.children.length := by
  cases program with
  | decision label consequent alternative => cases alternative <;> rfl
  | _ => simp [places, children]

@[simp]
theorem tag_construct (program : Located α) :
    program.construct.tag = program.tag := by
  cases program <;> rfl

@[simp]
theorem label_written (program : Located α) :
    program.written.label = program.label.2 :=
  label_map _ _

@[simp]
theorem children_written (program : Located α) :
    program.written.children = program.children.map written :=
  children_map _ _

@[simp]
theorem tag_written (program : Located α) :
    program.written.tag = program.tag :=
  tag_map _ _

private theorem filterMap_mapIdx_child {β : Type} (name : Nat → SlotName)
    (handleOf : β → Handle) (items : List β) :
    (items.mapIdx fun index item =>
        (⟨name index, some (handleOf item), true⟩ : Slot)).filterMap
        (fun slot => slot.child.map fun child => (slot.name, child)) =
      ((List.range items.length).map name).zip (items.map handleOf) := by
  induction items generalizing name with
  | nil => rfl
  | cons item rest ih =>
      simp only [List.mapIdx_cons, List.filterMap_cons, Option.map_some,
        ih fun index => name (index + 1)]
      simp [List.range_succ_eq_map, Function.comp_def]

theorem children_construct (program : Located α) :
    program.construct.children =
      program.places.zip (program.children.map handle) := by
  cases program with
  | decision label consequent alternative => cases alternative <;> rfl
  | block label members =>
      have listed := filterMap_mapIdx_child .member id (members.map handle)
      simpa [construct, Construct.children, Construct.slots, places, children]
        using listed
  | selection label arms =>
      have listed := filterMap_mapIdx_child .arm
        (fun arm : String × Located α => arm.2.handle) arms
      simpa [construct, Construct.children, Construct.slots, places, children,
        List.mapIdx_eq_zipIdx_map, List.zipIdx_map, Function.comp_def]
        using listed
  | _ => rfl

theorem handles_construct (program : Located α) :
    program.construct.children.map Prod.snd =
      program.children.map handle := by
  rw [children_construct, List.map_snd_zip]
  simp [length_places]

/-- A place of a stored node holds one of its children, or need not hold any. -/
theorem filled_or_optional {program : Located α} {slot : Slot}
    (slotIn : slot ∈ program.construct.slots) :
    (∃ child ∈ program.children, slot.child = some child.handle) ∨
      slot.child = none ∧ slot.required = false := by
  cases program with
  | statement label kind | result label | typeDefinition label => cases slotIn
  | block label members =>
      obtain ⟨index, inside, rfl⟩ := List.mem_mapIdx.mp slotIn
      rw [List.length_map] at inside
      exact .inl ⟨members[index], List.getElem_mem inside, by simp⟩
  | decision label consequent alternative =>
      rcases List.mem_cons.mp slotIn with rfl | isAlternative
      · exact .inl ⟨consequent, List.mem_cons_self, rfl⟩
      · obtain rfl := List.mem_singleton.mp isAlternative
        cases alternative with
        | none => exact .inr ⟨rfl, rfl⟩
        | some alternative =>
            exact .inl ⟨alternative, List.mem_cons_of_mem _ List.mem_cons_self, rfl⟩
  | selection label arms =>
      obtain ⟨index, inside, rfl⟩ := List.mem_mapIdx.mp slotIn
      rw [List.length_map] at inside
      exact .inl ⟨arms[index].2, List.mem_map_of_mem (List.getElem_mem inside),
        by simp⟩
  | loop label kind body | container label kind body =>
      obtain rfl := List.mem_singleton.mp slotIn
      exact .inl ⟨body, List.mem_cons_self, rfl⟩

end Program

namespace Tree

variable {α : Type}

/-- Every node of the program is stored where it says. -/
def Holds (tree : Tree α) (program : Located α) : Prop :=
  ∀ node ∈ program.preorder, tree.node? node.handle = some node.node

namespace Holds

variable {tree : Tree α} {program : Located α}

theorem root (holds : tree.Holds program) :
    tree.node? program.handle = some program.node :=
  holds program program.self_mem_preorder

theorem lt_size (holds : tree.Holds program) {handle : Handle}
    (handleIn : handle ∈ program.preorder.map Program.handle) :
    handle < tree.size := by
  obtain ⟨node, nodeIn, rfl⟩ := List.mem_map.mp handleIn
  exact (Array.getElem?_eq_some_iff.mp (holds node nodeIn)).1

theorem child {child : Located α} (holds : tree.Holds program)
    (childIn : child ∈ program.children) : tree.Holds child :=
  fun node nodeIn => holds node (Program.mem_preorder_of_child childIn nodeIn)

theorem children_eq (holds : tree.Holds program) :
    tree.children program.handle =
      program.places.zip (program.children.map Program.handle) := by
  rw [Tree.children, holds.root]
  exact program.children_construct

theorem childHandles_eq (holds : tree.Holds program) :
    (tree.children program.handle).map Prod.snd =
      program.children.map Program.handle := by
  rw [Tree.children, holds.root]
  exact program.handles_construct

end Holds

end Tree

end Flowchart
