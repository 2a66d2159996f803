import Flowchart.Proofs.Tree.WellFormed

/-!
# Programs stored as trees

Storing a program adds its nodes behind those stored before, children before
their parents.  A stored program is given the handles of its nodes, so that the
tree holds it: its root comes last, and every place of the arena is taken once.
-/

namespace Flowchart

namespace Program

variable {α : Type}

/-- From `before` to `after` the nodes of these programs are added, and each
node lies where it says. -/
structure Adds (before after : Array (Node α)) (programs : List (Located α)) :
    Prop where
  nodes : after.toList = before.toList ++ (programs.flatMap postorder).map node
  handles : (programs.flatMap postorder).map handle =
    List.range' before.size (programs.flatMap postorder).length

namespace Adds

variable {before between after : Array (Node α)} {program : Located α}
  {programs others : List (Located α)}

theorem size_eq (adds : Adds before after programs) :
    after.size = before.size + (programs.flatMap postorder).length := by
  rw [← Array.length_toList, adds.nodes]
  simp

theorem nil (nodes : Array (Node α)) : Adds nodes nodes [] :=
  ⟨by simp, rfl⟩

theorem append (first : Adds before between programs)
    (second : Adds between after others) :
    Adds before after (programs ++ others) where
  nodes := by
    rw [second.nodes, first.nodes, List.flatMap_append, List.map_append,
      List.append_assoc]
  handles := by
    rw [List.flatMap_append, List.map_append, first.handles, second.handles,
      first.size_eq, List.length_append, List.range'_append_1]

/-- A node is stored after its children. -/
theorem push (adds : Adds before after program.children)
    (isLast : program.handle = after.size) :
    Adds before (after.push program.node) [program] where
  nodes := by
    rw [Array.toList_push, adds.nodes, List.flatMap_singleton, postorder_eq]
    simp
  handles := by
    rw [List.flatMap_singleton, postorder_eq, List.map_append, adds.handles,
      List.length_append, List.map_singleton, isLast, adds.size_eq]
    exact (List.range'_append_1 (n := 1)).symm ▸ rfl

/-- The root of a program is stored last. -/
theorem handle_eq (adds : Adds before after [program]) :
    after.size - 1 = program.handle := by
  have listed := adds.handles
  rw [List.flatMap_singleton, postorder_eq, List.map_append, List.map_singleton,
    List.length_append, List.length_singleton, List.range'_1_concat] at listed
  have isLast := (List.append_inj' listed rfl).2
  have counted := adds.size_eq
  rw [List.flatMap_singleton, postorder_eq, List.length_append,
    List.length_singleton] at counted
  rw [List.singleton_inj.mp isLast]
  omega

end Adds

/-! ## One construct after the other -/

/-- `Storable program` says that storing the program adds its nodes, whatever is
stored before. -/
def Storable (program : Program (Label α)) : Prop :=
  ∀ before, ∃ located : Located α, located.written = program ∧
    Adds before (program.store before) [located]

theorem store_block (before : Array (Node α)) (label : Label α)
    (members : List (Program (Label α))) :
    (Program.block label members).store before =
      (storeMembers before members).1.push
        ⟨label, .block (storeMembers before members).2⟩ := rfl

theorem store_selection (before : Array (Node α)) (label : Label α)
    (arms : List (String × Program (Label α))) :
    (Program.selection label arms).store before =
      (storeArms before arms).1.push
        ⟨label, .selection (storeArms before arms).2⟩ := rfl

theorem exists_addsMembers {members : List (Program (Label α))}
    (each : ∀ member ∈ members, Storable member) (before : Array (Node α)) :
    ∃ located : List (Located α), located.map written = members ∧
      Adds before (storeMembers before members).1 located ∧
      (storeMembers before members).2 = located.map handle := by
  induction members generalizing before with
  | nil => exact ⟨[], rfl, .nil before, rfl⟩
  | cons member rest ih =>
      obtain ⟨first, rfl, firstAdds⟩ := each member List.mem_cons_self before
      obtain ⟨others, rfl, othersAdd, areHandles⟩ := ih
        (fun other otherIn => each other (List.mem_cons_of_mem _ otherIn))
        (first.written.store before)
      refine ⟨first :: others, rfl, firstAdds.append othersAdd, ?_⟩
      rw [storeMembers, List.map_cons, ← areHandles, firstAdds.handle_eq]

theorem exists_addsArms {arms : List (String × Program (Label α))}
    (each : ∀ arm ∈ arms, Storable arm.2) (before : Array (Node α)) :
    ∃ located : List (String × Located α),
      (located.map fun arm => (arm.1, arm.2.written)) = arms ∧
      Adds before (storeArms before arms).1 (located.map Prod.snd) ∧
      (storeArms before arms).2 =
        located.map fun arm => ⟨arm.1, some arm.2.handle⟩ := by
  induction arms generalizing before with
  | nil => exact ⟨[], rfl, .nil before, rfl⟩
  | cons arm rest ih =>
      obtain ⟨pattern, body⟩ := arm
      obtain ⟨first, rfl, firstAdds⟩ := each (pattern, body) List.mem_cons_self before
      obtain ⟨others, rfl, othersAdd, areArms⟩ := ih
        (fun other otherIn => each other (List.mem_cons_of_mem _ otherIn))
        (first.written.store before)
      refine ⟨(pattern, first) :: others, rfl, firstAdds.append othersAdd, ?_⟩
      rw [storeArms, List.map_cons, ← areArms, firstAdds.handle_eq]

/-- A construct is stored once its root is put behind the children. -/
theorem exists_stored {program : Program (Label α)} {before between : Array (Node α)}
    (root : Located α) (adds : Adds before between root.children)
    (isLast : root.handle = between.size) (isWritten : root.written = program)
    (isStored : program.store before = between.push root.node) :
    ∃ located : Located α, located.written = program ∧
      Adds before (program.store before) [located] :=
  ⟨root, isWritten, isStored ▸ adds.push isLast⟩

theorem storable (program : Program (Label α)) : Storable program := by
  intro before
  induction program generalizing before with
  | statement label kind =>
      exact exists_stored (.statement (before.size, label) kind) (.nil before)
        rfl rfl rfl
  | result label =>
      exact exists_stored (.result (before.size, label)) (.nil before) rfl rfl rfl
  | typeDefinition label =>
      exact exists_stored (.typeDefinition (before.size, label)) (.nil before)
        rfl rfl rfl
  | block label members ih =>
      obtain ⟨located, rfl, adds, areHandles⟩ := exists_addsMembers ih before
      refine exists_stored (.block (_, label) located) adds rfl ?_ ?_
      · rw [written, map, mapMembers_eq]
        rfl
      · rw [store_block, areHandles]
        rfl
  | decision label consequent ih =>
      obtain ⟨body, rfl, adds⟩ := ih before
      refine exists_stored (.decision (_, label) body none) adds rfl rfl ?_
      rw [store, adds.handle_eq]
      rfl
  | choice label consequent alternative consequentStored alternativeStored =>
      obtain ⟨first, rfl, firstAdds⟩ := consequentStored before
      obtain ⟨second, rfl, secondAdds⟩ :=
        alternativeStored (first.written.store before)
      refine exists_stored (.decision (_, label) first (some second))
        (firstAdds.append secondAdds) rfl rfl ?_
      rw [store, firstAdds.handle_eq, secondAdds.handle_eq]
      rfl
  | selection label arms ih =>
      obtain ⟨located, rfl, adds, areArms⟩ := exists_addsArms ih before
      refine exists_stored (.selection (_, label) located) adds rfl ?_ ?_
      · rw [written, map, mapArms_eq]
        rfl
      · rw [store_selection, areArms]
        rfl
  | loop label kind body ih =>
      obtain ⟨inner, rfl, adds⟩ := ih before
      refine exists_stored (.loop (_, label) kind inner) adds rfl rfl ?_
      rw [store, adds.handle_eq]
      rfl
  | container label kind body ih =>
      obtain ⟨inner, rfl, adds⟩ := ih before
      refine exists_stored (.container (_, label) kind inner) adds rfl rfl ?_
      rw [store, adds.handle_eq]
      rfl

end Program

/-! ## The whole tree -/

namespace Tree

variable {α : Type}

/-- A tree stores this program and nothing else, its root last. -/
structure Contains (tree : Tree α) (program : Located α) : Prop where
  root : tree.root = some program.handle
  nodes : tree.nodes.toList = program.postorder.map Program.node
  handles : program.postorder.map Program.handle = List.range tree.size

theorem exists_ofProgram (program : Program (Label α)) :
    ∃ located : Located α, located.written = program ∧
      (ofProgram program).Contains located := by
  obtain ⟨located, isWritten, adds⟩ := program.storable #[]
  refine ⟨located, isWritten, ?_, ?_, ?_⟩
  · rw [ofProgram, adds.handle_eq]
  · have listed := adds.nodes
    rw [List.flatMap_singleton] at listed
    exact listed
  · have listed := adds.handles
    have counted := adds.size_eq
    rw [List.flatMap_singleton] at listed counted
    rw [listed, List.range_eq_range', size, ofProgram, counted]
    simp

namespace Contains

variable {tree : Tree α} {program : Located α}

theorem handles_perm (contains : tree.Contains program) :
    program.handles.Perm (List.range tree.size) := by
  rw [← contains.handles, Program.handles]
  exact program.postorder_perm_preorder.symm.map _

theorem holds (contains : tree.Contains program) : tree.Holds program := by
  intro node nodeIn
  have inPostorder := program.postorder_perm_preorder.mem_iff.mpr nodeIn
  obtain ⟨index, inside, rfl⟩ := List.mem_iff_getElem.mp inPostorder
  have isHandle : (program.postorder[index]).handle = index := by
    have listed := List.getElem_of_eq contains.handles (by simpa using inside)
    simpa using listed
  rw [isHandle, node?, ← Array.getElem?_toList, contains.nodes,
    List.getElem?_map, List.getElem?_eq_getElem inside]
  rfl

end Contains

end Tree

end Flowchart
