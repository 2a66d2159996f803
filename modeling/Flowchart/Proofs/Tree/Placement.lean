import Flowchart.Proofs.Tree.Reading

/-!
# Where declarations stand

Flow runs through a program or it does not: declarations keep to the outside,
that is to the root, to the bodies of services, and to the blocks that are one of
these.  Everything else, the bodies of functions included, holds no declaration
at all.  Validation sees to this node by node; here it is one shape of the whole
program.
-/

namespace Flowchart

namespace Program

variable {L M : Type}

/-- Nothing in the program is declared. -/
def Flowing (program : Program L) : Prop :=
  ∀ node ∈ program.preorder, node.tag.isDeclaration = false

/-- A program that may stand at the root or as the body of a service. -/
inductive Outer : Program L → Prop where
  | typeDefinition (label : L) : Outer (.typeDefinition label)
  | function (label : L) {body : Program L} :
      Flowing body → Outer (.container label .function body)
  | service (label : L) {body : Program L} :
      Outer body → Outer (.container label .service body)
  | block (label : L) {members : List (Program L)} :
      (∀ member ∈ members, member.tag.isDeclaration = true → Outer member) →
      (∀ member ∈ members, member.tag.isDeclaration = false →
        Flowing member) →
      Outer (.block label members)
  | flowing {program : Program L} : Flowing program → Outer program

namespace Flowing

theorem root {program : Program L} (flowing : Flowing program) :
    program.tag.isDeclaration = false :=
  flowing program program.self_mem_preorder

theorem child {program child : Program L} (flowing : Flowing program)
    (childIn : child ∈ program.children) : Flowing child :=
  fun node nodeIn => flowing node (mem_preorder_of_child childIn nodeIn)

theorem of_children {program : Program L}
    (notDeclared : program.tag.isDeclaration = false)
    (below : ∀ child ∈ program.children, Flowing child) :
    Flowing program := by
  intro node nodeIn
  rcases mem_preorder_iff.mp nodeIn with rfl | ⟨child, childIn, inChild⟩
  · exact notDeclared
  · exact below child childIn node inChild

theorem map (change : L → M) {program : Program L}
    (flowing : Flowing program) : Flowing (program.map change) := by
  intro node nodeIn
  rw [preorder_map] at nodeIn
  obtain ⟨original, originalIn, rfl⟩ := List.mem_map.mp nodeIn
  rw [tag_map]
  exact flowing original originalIn

end Flowing

theorem Outer.map (change : L → M) {program : Program L}
    (outer : Outer program) : Outer (program.map change) := by
  induction outer with
  | typeDefinition label => exact .typeDefinition _
  | function label flowing => exact .function _ (flowing.map change)
  | service label _ ih => exact .service _ ih
  | flowing flowing => exact .flowing (flowing.map change)
  | block label declared flowing ih =>
      rw [Program.map, mapMembers_eq]
      refine .block _ (fun member memberIn isDeclaration => ?_)
        fun member memberIn notDeclaration => ?_
      · obtain ⟨original, originalIn, rfl⟩ := List.mem_map.mp memberIn
        exact ih original originalIn (by simpa using isDeclaration)
      · obtain ⟨original, originalIn, rfl⟩ := List.mem_map.mp memberIn
        exact (flowing original originalIn
          (by simpa using notDeclaration)).map change

/-! ## From the rule for each node -/

/-- Whether a declaration may stand below ancestors with these tags. -/
def mayHold : List Tag → Bool
  | [] => true
  | .container .service :: _ => true
  | [.block] => true
  | .block :: .container .service :: _ => true
  | _ => false

/-- Every declaration keeps to the rule, the root standing below ancestors with
these tags. -/
def PlacedBelow (tags : List Tag) (program : Program L) : Prop :=
  ∀ above node, program.Stands above node →
    node.tag.isDeclaration = true → mayHold (above.map tag ++ tags) = true

theorem PlacedBelow.child {tags : List Tag} {program child : Program L}
    (placed : PlacedBelow tags program) (childIn : child ∈ program.children) :
    PlacedBelow (program.tag :: tags) child := by
  intro above node stands isDeclaration
  simpa using placed _ node (stands.inside childIn) isDeclaration

/-- Below these tags nothing may be declared at any depth. -/
def Sealed : List Tag → Prop
  | .container .service :: _ => False
  | [.block] => False
  | .block :: .container .service :: _ => False
  | [] => False
  | _ => True

theorem Sealed.not_mayHold {tags : List Tag} (isSealed : Sealed tags) :
    mayHold tags = false := by
  unfold Sealed at isSealed
  unfold mayHold
  split at isSealed <;> simp_all

theorem Sealed.cons {tag : Tag} {tags : List Tag} (isSealed : Sealed tags)
    (notDeclaration : tag.isDeclaration = false) : Sealed (tag :: tags) := by
  cases tag with
  | container kind => simp [Tag.isDeclaration] at notDeclaration
  | block =>
      cases tags with
      | nil => exact isSealed.elim
      | cons head rest =>
          unfold Sealed at isSealed ⊢
          split at isSealed <;> simp_all
  | _ => trivial

theorem PlacedBelow.flowing {tags : List Tag} {program : Program L}
    (placed : PlacedBelow tags program) (isSealed : Sealed tags) :
    Flowing program := by
  induction program using childrenInduction generalizing tags with
  | step program ih =>
    have notDeclared : program.tag.isDeclaration = false := by
      by_contra declared
      have allowed := placed [] program .root (by simpa using declared)
      simp [isSealed.not_mayHold] at allowed
    exact .of_children notDeclared fun child childIn =>
      ih child childIn (placed.child childIn) (isSealed.cons notDeclared)

/-- A construct that declares nothing and is no block is sealed off. -/
theorem sealed_of_plain {tag : Tag} {tags : List Tag}
    (notService : tag ≠ .container .service) (notBlock : tag ≠ .block) :
    Sealed (tag :: tags) := by
  cases tag with
  | container kind => cases kind <;> simp_all [Sealed]
  | _ => simp_all [Sealed]

/-- Below a construct that declares nothing itself and seals off what is in it,
nothing is declared. -/
theorem PlacedBelow.flowing_of_inner {tags : List Tag} {program : Program L}
    (placed : PlacedBelow tags program)
    (notDeclared : program.tag.isDeclaration = false)
    (isSealed : Sealed (program.tag :: tags)) : Flowing program :=
  .of_children notDeclared fun _ childIn =>
    (placed.child childIn).flowing isSealed

theorem PlacedBelow.flowing_of_plain {tags : List Tag} {program : Program L}
    (placed : PlacedBelow tags program)
    (notDeclared : program.tag.isDeclaration = false)
    (notBlock : program.tag ≠ .block) : Flowing program := by
  refine placed.flowing_of_inner notDeclared (sealed_of_plain ?_ notBlock)
  intro isService
  simp [isService, Tag.isDeclaration] at notDeclared

/-- A member of a block that is not declared itself declares nothing below. -/
theorem PlacedBelow.flowing_of_member {tags : List Tag} {program : Program L}
    (placed : PlacedBelow (.block :: tags) program)
    (notDeclared : program.tag.isDeclaration = false) : Flowing program := by
  refine placed.flowing_of_inner notDeclared ?_
  cases isTag : program.tag with
  | container kind => simp [isTag, Tag.isDeclaration] at notDeclared
  | _ => trivial

/-- Placement by the rule gives the shape of an outer program, at the root and
in a service; what is declared has this shape wherever it may stand. -/
theorem PlacedBelow.outer {tags : List Tag} {program : Program L}
    (placed : PlacedBelow tags program)
    (atOutside : program.tag.isDeclaration = true ∨ tags = [] ∨
      ∃ above, tags = .container .service :: above) : Outer program := by
  induction program generalizing tags with
  | typeDefinition label => exact .typeDefinition label
  | container label kind body ih =>
      have bodyPlaced : PlacedBelow (.container kind :: tags) body :=
        placed.child (by simp [children])
      cases kind with
      | function =>
          refine .function label (bodyPlaced.flowing ?_)
          exact sealed_of_plain (by simp) (by simp)
      | service => exact .service label (ih bodyPlaced (.inr (.inr ⟨_, rfl⟩)))
  | block label members ih =>
      have memberPlaced : ∀ member ∈ members,
          PlacedBelow (.block :: tags) member :=
        fun member memberIn => by
          have isChild : member ∈ (block label members).children := memberIn
          exact placed.child isChild
      refine .block label (fun member memberIn isDeclared => ?_)
        fun member memberIn notDeclared => ?_
      · exact ih member memberIn (memberPlaced member memberIn)
          (.inl isDeclared)
      · exact (memberPlaced member memberIn).flowing_of_member notDeclared
  | _ => exact .flowing (placed.flowing_of_plain rfl (by simp [tag]))

end Program

/-! ## From validation -/

namespace Tree

variable {α : Type} [Scalar α] {tree : Tree α} {limit : Nat}
  {program : Located α}

namespace Stores

theorem defectOf_eq_none (stores : tree.Stores limit program)
    {node : Located α} (nodeIn : node ∈ program.preorder) :
    ∃ ancestors, tree.defectOf? limit node.node ancestors = none := by
  obtain ⟨above, stands⟩ := Program.Stands.of_mem_preorder nodeIn
  exact ⟨_, stores.clean above node stands⟩

theorem hasValidHint (stores : tree.Stores limit program)
    {node : Located α} (nodeIn : node ∈ program.preorder) :
    node.label.2.hasValidHint = true := by
  obtain ⟨ancestors, sound⟩ := stores.defectOf_eq_none nodeIn
  by_contra invalid
  have asNode : node.node.hasValidHint = false :=
    Bool.eq_false_of_not_eq_true invalid
  simp [defectOf?, asNode] at sound

theorem selection_ne_nil (stores : tree.Stores limit program)
    {label : Handle × Label α} {arms : List (String × Located α)}
    (nodeIn : Program.selection label arms ∈ program.preorder) :
    arms ≠ [] := by
  rintro rfl
  obtain ⟨ancestors, sound⟩ := stores.defectOf_eq_none nodeIn
  unfold defectOf? at sound
  split at sound
  · cases sound
  · split at sound
    · cases sound
    · split at sound
      · cases sound
      · simp [Program.node, Program.construct] at sound

omit [Scalar α] in
/-- The tags of the nodes above a node are those that its tree tells. -/
theorem mayHoldDeclaration_eq {root : Located α} (holds : tree.Holds root)
    {above : List (Located α)} (aboveIn : ∀ node ∈ above, node ∈ root.preorder) :
    tree.mayHoldDeclaration (above.map Program.handle) =
      Program.mayHold (above.map Program.tag) := by
  have tagOf : ∀ node ∈ above,
      (tree.node? node.handle).map Node.tag = some node.tag := by
    intro node nodeIn
    rw [holds node (aboveIn node nodeIn), Option.map_some]
    exact congrArg some (Program.tag_construct node)
  unfold mayHoldDeclaration
  cases above with
  | nil => rfl
  | cons parent earlier =>
      simp only [List.map_cons, tagOf parent List.mem_cons_self]
      cases earlier with
      | nil =>
          cases parent.tag with
          | container kind => cases kind <;> rfl
          | _ => rfl
      | cons grandparent others =>
          have grandparentTag := tagOf grandparent (by simp)
          simp only [List.map_cons, grandparentTag]
          cases parent.tag with
          | container kind => cases kind <;> rfl
          | block =>
              cases grandparent.tag with
              | container kind => cases kind <;> rfl
              | _ => rfl
          | _ => rfl

/-- In a tree that passes validation, declarations keep to the outside. -/
theorem outer (stores : tree.Stores limit program) : program.Outer := by
  suffices placed : program.PlacedBelow [] from placed.outer (.inr (.inl rfl))
  intro above node stands isDeclared
  have sound := stores.clean above node stands
  have nodeDeclared : node.node.tag.isDeclaration = true := by
    simpa [Node.tag, Program.node] using isDeclared
  rw [List.append_nil] at sound ⊢
  rw [← mayHoldDeclaration_eq stores.holds stands.above_mem_preorder]
  by_contra misplaced
  have asTree : tree.mayHoldDeclaration (above.map Program.handle) = false := by
    simpa using misplaced
  unfold defectOf? at sound
  split at sound
  · cases sound
  · split at sound
    · cases sound
    · simp [nodeDeclared, asTree] at sound

end Stores

end Tree

end Flowchart
