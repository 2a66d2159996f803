import Flowchart.Program.Basic
import Mathlib

/-!
# Programs as trees

A program is a tree of constructs, whatever the lists in it look like.  This
module states the recursions over programs through the children of a node, gives
the induction that goes with them, and says where a node stands in a program.
-/

namespace Flowchart.Program

variable {L M : Type}

/-! ## Induction -/

/-- Induction over programs, with the hypothesis for every child. -/
@[elab_as_elim, induction_eliminator]
protected theorem induction {motive : Program L → Prop}
    (statement : ∀ label kind, motive (.statement label kind))
    (block : ∀ label members, (∀ member ∈ members, motive member) →
      motive (.block label members))
    (decision : ∀ label consequent, motive consequent →
      motive (.decision label consequent none))
    (choice : ∀ label consequent alternative, motive consequent →
      motive alternative →
      motive (.decision label consequent (some alternative)))
    (selection : ∀ label arms,
      (∀ arm : String × Program L, arm ∈ arms → motive arm.2) →
      motive (.selection label arms))
    (loop : ∀ label kind body, motive body → motive (.loop label kind body))
    (result : ∀ label, motive (.result label))
    (container : ∀ label kind body, motive body →
      motive (.container label kind body))
    (typeDefinition : ∀ label, motive (.typeDefinition label))
    (program : Program L) : motive program := by
  refine Program.rec
    (motive_1 := motive)
    (motive_2 := fun members => ∀ member ∈ members, motive member)
    (motive_3 := fun option => ∀ member ∈ option, motive member)
    (motive_4 := fun arms =>
      ∀ arm : String × Program L, arm ∈ arms → motive arm.2)
    (motive_5 := fun arm => motive arm.2)
    statement block ?decisions selection loop result container typeDefinition
    ?noMember ?someMembers ?noAlternative ?someAlternative ?noArm ?someArms
    (fun _ _ held => held) program
  case decisions =>
    intro label consequent alternative consequentHeld alternativeHeld
    cases alternative with
    | none => exact decision label consequent consequentHeld
    | some alternative =>
        exact choice label consequent alternative consequentHeld
          (alternativeHeld alternative rfl)
  case noMember => simp
  case someMembers =>
    intro head tail headHeld tailHeld member memberIn
    rcases List.mem_cons.mp memberIn with rfl | inTail
    · exact headHeld
    · exact tailHeld member inTail
  case noAlternative => simp
  case someAlternative =>
    intro alternative held member memberIn
    obtain rfl := Option.mem_some_iff.mp memberIn
    exact held
  case noArm => simp
  case someArms =>
    intro head tail headHeld tailHeld arm armIn
    rcases List.mem_cons.mp armIn with rfl | inTail
    · exact headHeld
    · exact tailHeld arm inTail

/-- Induction for properties that do not look at the kind of a construct. -/
theorem childrenInduction {motive : Program L → Prop}
    (step : ∀ program : Program L,
      (∀ child ∈ program.children, motive child) → motive program)
    (program : Program L) : motive program := by
  induction program with
  | statement label kind => exact step _ (by simp [children])
  | block label members ih => exact step _ (by simpa [children] using ih)
  | decision label consequent ih => exact step _ (by simpa [children] using ih)
  | choice label consequent alternative ih₁ ih₂ =>
      exact step _ (by simpa [children] using ⟨ih₁, ih₂⟩)
  | selection label arms ih =>
      refine step _ fun child childIn => ?_
      obtain ⟨arm, armIn, rfl⟩ := List.mem_map.mp childIn
      exact ih arm armIn
  | loop label kind body ih => exact step _ (by simpa [children] using ih)
  | result label => exact step _ (by simp [children])
  | container label kind body ih => exact step _ (by simpa [children] using ih)
  | typeDefinition label => exact step _ (by simp [children])

/-! ## Recursions through the children -/

theorem mapMembers_eq (change : L → M) (members : List (Program L)) :
    mapMembers change members = members.map (map change) := by
  induction members with
  | nil => rfl
  | cons member rest ih => simp [mapMembers, ih]

theorem mapArms_eq (change : L → M) (arms : List (String × Program L)) :
    mapArms change arms =
      arms.map fun arm => (arm.1, map change arm.2) := by
  induction arms with
  | nil => rfl
  | cons arm rest ih => simp [mapArms, ih]

theorem preorderMembers_eq (members : List (Program L)) :
    preorderMembers members = members.flatMap preorder := by
  induction members with
  | nil => rfl
  | cons member rest ih => simp [preorderMembers, ih]

theorem preorderArms_eq (arms : List (String × Program L)) :
    preorderArms arms = (arms.map Prod.snd).flatMap preorder := by
  induction arms with
  | nil => rfl
  | cons arm rest ih => simp [preorderArms, ih]

theorem postorderMembers_eq (members : List (Program L)) :
    postorderMembers members = members.flatMap postorder := by
  induction members with
  | nil => rfl
  | cons member rest ih => simp [postorderMembers, ih]

theorem postorderArms_eq (arms : List (String × Program L)) :
    postorderArms arms = (arms.map Prod.snd).flatMap postorder := by
  induction arms with
  | nil => rfl
  | cons arm rest ih => simp [postorderArms, ih]

/-- A node comes before all below it, and its children follow in order. -/
theorem preorder_eq (program : Program L) :
    program.preorder = program :: program.children.flatMap preorder := by
  cases program with
  | decision label consequent alternative =>
      cases alternative <;> simp [preorder, children]
  | _ => simp [preorder, children, preorderMembers_eq, preorderArms_eq]

/-- A node comes after all below it, and its children stand in order. -/
theorem postorder_eq (program : Program L) :
    program.postorder = program.children.flatMap postorder ++ [program] := by
  cases program with
  | decision label consequent alternative =>
      cases alternative <;> simp [postorder, children]
  | _ => simp [postorder, children, postorderMembers_eq, postorderArms_eq]

theorem self_mem_preorder (program : Program L) :
    program ∈ program.preorder := by
  rw [preorder_eq]
  exact List.mem_cons_self

theorem mem_preorder_of_child {program child node : Program L}
    (childIn : child ∈ program.children) (nodeIn : node ∈ child.preorder) :
    node ∈ program.preorder := by
  rw [preorder_eq]
  exact List.mem_cons_of_mem _ (List.mem_flatMap.mpr ⟨child, childIn, nodeIn⟩)

theorem mem_preorder_iff {program node : Program L} :
    node ∈ program.preorder ↔
      node = program ∨ ∃ child ∈ program.children, node ∈ child.preorder := by
  rw [preorder_eq, List.mem_cons, List.mem_flatMap]

theorem mem_preorder_trans {program middle node : Program L}
    (middleIn : middle ∈ program.preorder) (nodeIn : node ∈ middle.preorder) :
    node ∈ program.preorder := by
  induction program using childrenInduction with
  | step program ih =>
    rcases mem_preorder_iff.mp middleIn with rfl | ⟨child, childIn, below⟩
    · exact nodeIn
    · exact mem_preorder_of_child childIn (ih child childIn below)

/-- What is below a node comes in one piece. -/
theorem preorder_isInfixOf {program node : Program L}
    (nodeIn : node ∈ program.preorder) : node.preorder <:+: program.preorder := by
  induction program using childrenInduction with
  | step program ih =>
    rcases mem_preorder_iff.mp nodeIn with rfl | ⟨child, childIn, inChild⟩
    · exact List.infix_rfl
    · obtain ⟨before, after, isSplit⟩ := List.append_of_mem childIn
      have below : child.preorder <:+: program.children.flatMap preorder := by
        rw [isSplit, List.flatMap_append, List.flatMap_cons]
        exact ⟨_, _, List.append_assoc _ _ _⟩
      rw [preorder_eq program]
      exact (ih child childIn inChild).trans
        (below.trans (List.suffix_cons _ _).isInfix)

/-- What is below a node comes in the order of the whole program. -/
theorem preorder_sublist {program node : Program L}
    (nodeIn : node ∈ program.preorder) :
    node.preorder.Sublist program.preorder :=
  (preorder_isInfixOf nodeIn).sublist

theorem children_sublist_preorder (program : Program L) :
    program.children.Sublist program.preorder := by
  rw [preorder_eq]
  refine .cons _ ?_
  induction program.children with
  | nil => exact .refl _
  | cons child rest ih =>
      rw [List.flatMap_cons, preorder_eq, List.cons_append]
      exact .cons_cons _ (ih.trans (List.sublist_append_right _ _))

theorem child_mem_preorder {program child : Program L}
    (childIn : child ∈ program.children) : child ∈ program.preorder :=
  mem_preorder_of_child childIn child.self_mem_preorder

/-- Both orders visit the same nodes. -/
theorem postorder_perm_preorder (program : Program L) :
    program.postorder.Perm program.preorder := by
  induction program using childrenInduction with
  | step program ih =>
    rw [postorder_eq, preorder_eq]
    have below : (program.children.flatMap postorder).Perm
        (program.children.flatMap preorder) :=
      List.Perm.flatMap_left _ ih
    exact (below.append_right [program]).trans
      (List.perm_append_singleton program _)

/-! ## Labels -/

/-- The labels of all nodes, parents before children. -/
def labels (program : Program L) : List L := program.preorder.map label

theorem labels_eq (program : Program L) :
    program.labels = program.label :: program.children.flatMap labels := by
  rw [labels, preorder_eq, List.map_cons, List.map_flatMap]
  rfl

theorem label_mem_labels (program : Program L) :
    program.label ∈ program.labels := by
  rw [labels_eq]
  exact List.mem_cons_self

theorem mem_labels_of_child {program child : Program L} {label : L}
    (childIn : child ∈ program.children) (labelIn : label ∈ child.labels) :
    label ∈ program.labels := by
  rw [labels_eq]
  exact List.mem_cons_of_mem _ (List.mem_flatMap.mpr ⟨child, childIn, labelIn⟩)

section Distinct

variable {program : Program L} (distinct : program.labels.Nodup)

include distinct

theorem labels_nodup_of_child {child : Program L}
    (childIn : child ∈ program.children) : child.labels.Nodup := by
  rw [labels_eq] at distinct
  exact (List.nodup_flatMap.mp distinct.of_cons).1 child childIn

theorem label_notMem_of_child {child : Program L}
    (childIn : child ∈ program.children) : program.label ∉ child.labels := by
  rw [labels_eq] at distinct
  exact fun again => (List.nodup_cons.mp distinct).1
    (List.mem_flatMap.mpr ⟨child, childIn, again⟩)

/-- A label lies below one child only. -/
theorem child_eq_of_mem_labels {child other : Program L} {label : L}
    (childIn : child ∈ program.children) (otherIn : other ∈ program.children)
    (labelIn : label ∈ child.labels) (labelInOther : label ∈ other.labels) :
    child = other := by
  rw [labels_eq] at distinct
  have apart := (List.nodup_flatMap.mp distinct.of_cons).2
  have symmetric : Std.Symm (Function.onFun List.Disjoint (labels (L := L))) :=
    ⟨fun _ _ disjoint => disjoint.symm⟩
  by_contra different
  exact apart.forall childIn otherIn different labelIn labelInOther

end Distinct

/-! ## Changed labels -/

@[simp]
theorem label_map (change : L → M) (program : Program L) :
    (program.map change).label = change program.label := by
  cases program with
  | decision label consequent alternative => cases alternative <;> rfl
  | _ => rfl

@[simp]
theorem tag_map (change : L → M) (program : Program L) :
    (program.map change).tag = program.tag := by
  cases program with
  | decision label consequent alternative => cases alternative <;> rfl
  | _ => rfl

@[simp]
theorem children_map (change : L → M) (program : Program L) :
    (program.map change).children = program.children.map (map change) := by
  cases program with
  | decision label consequent alternative =>
      cases alternative <;> simp [map, children]
  | _ => simp [map, children, mapMembers_eq, mapArms_eq]

theorem preorder_map (change : L → M) (program : Program L) :
    (program.map change).preorder = program.preorder.map (map change) := by
  induction program using childrenInduction with
  | step program ih =>
    rw [preorder_eq, preorder_eq program, children_map, List.map_cons,
      List.flatMap_map, List.map_flatMap]
    congr 1
    exact List.flatMap_congr fun child childIn => ih child childIn

theorem labels_map (change : L → M) (program : Program L) :
    (program.map change).labels = program.labels.map change := by
  simp [labels, preorder_map, Function.comp_def]

theorem map_map {N : Type} (second : M → N) (first : L → M)
    (program : Program L) :
    (program.map first).map second = program.map (second ∘ first) := by
  induction program with
  | statement label kind => simp [map]
  | block label members ih =>
      simp only [map, mapMembers_eq, List.map_map, block.injEq]
      exact ⟨rfl, List.map_congr_left ih⟩
  | decision label consequent ih => simp [map, ih]
  | choice label consequent alternative ih₁ ih₂ => simp [map, ih₁, ih₂]
  | selection label arms ih =>
      simp only [map, mapArms_eq, List.map_map, selection.injEq]
      exact ⟨rfl, List.map_congr_left fun arm armIn => by simp [ih arm armIn]⟩
  | loop label kind body ih => simp [map, ih]
  | result label => simp [map]
  | container label kind body ih => simp [map, ih]
  | typeDefinition label => simp [map]

theorem map_id (program : Program L) : program.map id = program := by
  induction program with
  | block label members ih =>
      simp only [map, mapMembers_eq, block.injEq]
      exact ⟨rfl, (List.map_congr_left ih).trans members.map_id⟩
  | selection label arms ih =>
      simp only [map, mapArms_eq, selection.injEq]
      refine ⟨rfl, Eq.trans ?_ arms.map_id⟩
      exact List.map_congr_left fun arm armIn => by rw [ih arm armIn]; rfl
  | _ => simp [map, *]

/-! ## Blocks -/

theorem exists_block_of_tag {program : Program L} (isBlock : program.tag = .block) :
    ∃ label members, program = .block label members := by
  cases program with
  | block label members => exact ⟨label, members, rfl⟩
  | _ => cases isBlock

theorem exists_block_of_map {change : L → M} {program : Program L} {label : M}
    {members : List (Program M)} (isBlock : program.map change = .block label members) :
    ∃ original originals, program = .block original originals ∧
      originals.map (map change) = members := by
  have sameTag : program.tag = .block := by
    rw [← tag_map change, isBlock]
    rfl
  obtain ⟨original, originals, rfl⟩ := exists_block_of_tag sameTag
  rw [map, mapMembers_eq] at isBlock
  exact ⟨original, originals, rfl, (block.inj isBlock).2⟩

/-! ## Where nodes stand -/

/-- `root.Stands above node` says that `node` lies in `root` right below the
nodes `above`, the nearest first. -/
inductive Stands (root : Program L) : List (Program L) → Program L → Prop where
  | root : Stands root [] root
  | child {above : List (Program L)} {parent node : Program L} :
      Stands root above parent → node ∈ parent.children →
      Stands root (parent :: above) node

namespace Stands

theorem inside {root child : Program L} (childIn : child ∈ root.children)
    {above : List (Program L)} {node : Program L}
    (stands : Stands child above node) :
    Stands root (above ++ [root]) node := by
  induction stands with
  | root => exact .child .root childIn
  | child _ nodeIn ih => exact .child ih nodeIn

theorem trans {root middle node : Program L} {above between : List (Program L)}
    (upper : Stands root above middle) (lower : Stands middle between node) :
    Stands root (between ++ above) node := by
  induction lower with
  | root => exact upper
  | child _ nodeIn ih => exact .child ih nodeIn

theorem cases_root {root : Program L} {above : List (Program L)}
    {node : Program L} (stands : Stands root above node) :
    (above = [] ∧ node = root) ∨
      ∃ child ∈ root.children, ∃ between,
        above = between ++ [root] ∧ Stands child between node := by
  induction stands with
  | root => exact .inl ⟨rfl, rfl⟩
  | @child above parent node parentStands nodeIn ih =>
      rcases ih with ⟨rfl, rfl⟩ | ⟨child, childIn, between, rfl, inChild⟩
      · exact .inr ⟨node, nodeIn, [], rfl, .root⟩
      · exact .inr ⟨child, childIn, parent :: between, rfl,
          .child inChild nodeIn⟩

theorem mem_preorder {root : Program L} {above : List (Program L)}
    {node : Program L} (stands : Stands root above node) :
    node ∈ root.preorder := by
  induction stands with
  | root => exact root.self_mem_preorder
  | child _ nodeIn ih =>
      exact mem_preorder_trans ih (child_mem_preorder nodeIn)

theorem above_mem_preorder {root : Program L} {above : List (Program L)}
    {node : Program L} (stands : Stands root above node) :
    ∀ ancestor ∈ above, ancestor ∈ root.preorder := by
  induction stands with
  | root => simp
  | child parentStands _ ih =>
      simpa using ⟨parentStands.mem_preorder, ih⟩

theorem of_mem_preorder {root node : Program L}
    (nodeIn : node ∈ root.preorder) : ∃ above, Stands root above node := by
  induction root using childrenInduction with
  | step root ih =>
    rcases mem_preorder_iff.mp nodeIn with rfl | ⟨child, childIn, inChild⟩
    · exact ⟨[], .root⟩
    · obtain ⟨above, stands⟩ := ih child childIn inChild
      exact ⟨above ++ [root], stands.inside childIn⟩

end Stands

/-! ## How deep nodes stand -/

/-- No node lies deeper below the root than given. -/
def IsShallow : Nat → Program L → Prop
  | 0, program => program.children = []
  | depth + 1, program => ∀ child ∈ program.children, child.IsShallow depth

theorem IsShallow.mono {program : Program L} {depth deeper : Nat}
    (shallow : program.IsShallow depth) (le : depth ≤ deeper) :
    program.IsShallow deeper := by
  induction depth generalizing program deeper with
  | zero =>
      cases deeper with
      | zero => exact shallow
      | succ deeper =>
          intro child childIn
          rw [shallow] at childIn
          cases childIn
  | succ depth ih =>
      obtain ⟨deeper, rfl⟩ := Nat.exists_eq_add_of_le' (Nat.le_of_add_left_le le)
      exact fun child childIn =>
        ih (shallow child childIn) (Nat.le_of_succ_le_succ le)

theorem isShallow_of_leaf {program : Program L} (isLeaf : program.children = [])
    (depth : Nat) : program.IsShallow depth := by
  have shallow : program.IsShallow 0 := isLeaf
  exact shallow.mono (Nat.zero_le depth)

theorem IsShallow.length_le {program node : Program L} {depth : Nat}
    (shallow : program.IsShallow depth) {above : List (Program L)}
    (stands : program.Stands above node) : above.length ≤ depth := by
  induction depth generalizing program above with
  | zero =>
      rcases stands.cases_root with ⟨rfl, -⟩ | ⟨child, childIn, -⟩
      · exact Nat.le_refl 0
      · rw [shallow] at childIn
        cases childIn
  | succ depth ih =>
      rcases stands.cases_root with ⟨rfl, -⟩ | ⟨child, childIn, between, rfl, inChild⟩
      · exact Nat.zero_le _
      · simpa using ih (shallow child childIn) inChild

theorem isShallow_map {change : L → M} {program : Program L} {depth : Nat} :
    (program.map change).IsShallow depth ↔ program.IsShallow depth := by
  induction depth generalizing program with
  | zero => rw [IsShallow, IsShallow, children_map, List.map_eq_nil_iff]
  | succ depth ih =>
      rw [IsShallow, IsShallow, children_map, List.forall_mem_map]
      exact forall₂_congr fun child _ => ih

end Flowchart.Program
