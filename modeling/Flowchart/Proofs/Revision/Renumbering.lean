import Flowchart.Proofs.Revision.Difference
import Flowchart.Proofs.Tree.Limits
import Flowchart.Proofs.Tree.Matching

/-!
# Revisions that are the same

The patches between two well-formed trees tell all that there is to tell.  So
there is none exactly if both trees have the same nodes with the same children,
wherever these are stored.
-/

namespace Flowchart

namespace Node

variable {α : Type} [Scalar α]

/-- The same node with its children stored elsewhere. -/
structure Renumbers (image : Handle → Handle) (node later : Node α) : Prop where
  id : node.id = later.id
  text : node.text = later.text
  hint : (node.hint == later.hint) = true
  construct : later.construct = node.construct.rename image

end Node

namespace Tree

variable {α : Type} [Scalar α]

/-- Both trees reach the same nodes in the same places. -/
def SameUpToNumbering (old new : Tree α) : Prop :=
  ∃ image, old.Matches new image (Node.Renumbers image)

end Tree

/-! ## Nodes that look the same -/

namespace Program

variable {α : Type} [Scalar α] {node later : Located α}

theorem Alike.places_eq (alike : node.Alike later) :
    node.places = later.places := by
  have length := congrArg List.length alike.children
  rw [List.length_map, List.length_map] at length
  rw [places_of_tag, places_of_tag, alike.tag, length]

theorem Alike.childPlaces_eq (alike : node.Alike later) :
    node.childPlaces = later.childPlaces := by
  rw [childPlaces, childPlaces, alike.places_eq, alike.children]

theorem Alike.saysSame (alike : node.Alike later) :
    node.node.SaysSame later.node :=
  ⟨alike.text, alike.hint, alike.kind, alike.patterns⟩

/-- With the places of its children all of a construct is known. -/
theorem Alike.construct_eq {image : Handle → Handle} (alike : node.Alike later)
    (moved : later.children.map handle = (node.children.map handle).map image) :
    later.construct = node.construct.rename image := by
  have tag := alike.tag
  have sameHandle : ∀ {child other : Located α},
      [other.handle] = ([child].map handle).map image →
      some other.handle = (some child.handle).map image := by
    intro child other same
    exact congrArg some (List.cons.inj same).1
  cases node with
  | statement label kind =>
      cases later with
      | statement other otherKind =>
          exact congrArg Construct.statement (Option.some.inj alike.kind).symm
      | _ => cases tag
  | block label members =>
      cases later with
      | block other others => exact congrArg Construct.block moved
      | _ => cases tag
  | decision label consequent alternative =>
      cases later with
      | decision other otherConsequent otherAlternative =>
          cases alternative <;> cases otherAlternative <;>
            simp [Program.children] at moved <;>
            simp [construct, Construct.rename, moved]
      | _ => cases tag
  | selection label arms =>
      cases later with
      | selection other others =>
          have samePatterns : others.map Prod.fst = arms.map Prod.fst := by
            simpa [construct, Construct.patterns, Function.comp_def]
              using alike.patterns.symm
          have paired := congrArg₂ List.zip samePatterns moved
          simp only [Program.children, List.map_map, List.zip_map',
            Function.comp_def] at paired
          have listed := congrArg (List.map fun arm : String × Handle =>
            (⟨arm.1, some arm.2⟩ : Arm)) paired
          simpa [construct, Construct.rename, Function.comp_def] using listed
      | _ => cases tag
  | loop label kind body =>
      cases later with
      | loop other otherKind otherBody =>
          rw [construct, construct, Construct.rename, ← sameHandle moved,
            Tag.loop.inj tag]
      | _ => cases tag
  | container label kind body =>
      cases later with
      | container other otherKind otherBody =>
          rw [construct, construct, Construct.rename, ← sameHandle moved,
            Tag.container.inj tag]
      | _ => cases tag
  | result label =>
      cases later with
      | result other => rfl
      | _ => cases tag
  | typeDefinition label =>
      cases later with
      | typeDefinition other => rfl
      | _ => cases tag

theorem Alike.of_renumbers {image : Handle → Handle}
    (same : Node.Renumbers image node.node later.node)
    (sameIds : node.children.map Program.identity =
      later.children.map Program.identity) : node.Alike later where
  identity := same.id
  tag := by
    have tags := congrArg Construct.tag same.construct
    have kept : (node.construct.rename image).tag = node.construct.tag := by
      cases node <;> rfl
    simpa [Program.node, kept] using tags.symm
  text := same.text
  hint := same.hint
  kind := by
    have kinds := congrArg Construct.statementKind? same.construct
    have kept : (node.construct.rename image).statementKind? =
        node.construct.statementKind? := by
      cases node <;> rfl
    exact (kinds.trans kept).symm
  patterns := by
    have patterns := congrArg Construct.patterns same.construct
    have kept : (node.construct.rename image).patterns =
        node.construct.patterns := by
      cases node with
      | selection label arms =>
          simp [Program.construct, Construct.rename, Construct.patterns,
            Function.comp_def]
      | _ => rfl
    exact (patterns.trans kept).symm
  children := sameIds

/-- Two programs have the same identities, and what is under one identity in
both looks the same. -/
structure Agrees (before after : Located α) : Prop where
  known : ∀ id, id ∈ before.identities ↔ id ∈ after.identities
  alike : ∀ node ∈ before.preorder, ∀ later ∈ after.preorder,
    node.identity = later.identity → node.Alike later

end Program

/-! ## No patches -/

namespace Tree

variable {α : Type} [Scalar α] {old new : Tree α}
  {before after : Located α} (oldBears : old.Bears before)
  (newBears : new.Bears after)

include oldBears newBears

/-- Nodes that stand for each other look the same. -/
theorem Bears.alike_of_renumbers {image : Handle → Handle}
    (paired : old.Matches new image (Node.Renumbers image))
    {node later : Located α} (nodeIn : node ∈ before.preorder)
    (laterIn : later ∈ after.preorder)
    (atImage : later.handle = image node.handle) : node.Alike later := by
  have same_of_image : ∀ {node later : Located α}, node ∈ before.preorder →
      later ∈ after.preorder → later.handle = image node.handle →
      Node.Renumbers image node.node later.node := by
    intro node later nodeIn laterIn atImage
    obtain ⟨other, otherIn, otherAt, same⟩ :=
      paired.exists_node oldBears newBears nodeIn
    obtain rfl := newBears.eq_of_handle laterIn otherIn
      (atImage.trans otherAt.symm)
    exact same
  have same := same_of_image nodeIn laterIn atImage
  refine Program.Alike.of_renumbers same ?_
  have moved : later.children.map Program.handle =
      (node.children.map Program.handle).map image := by
    refine Program.handles_of_slots ?_
    rw [← Construct.slots_rename]
    exact congrArg Construct.slots same.construct
  rw [List.map_map] at moved
  refine map_eq_map_of_keys moved.symm fun child childIn other otherIn atChild => ?_
  exact (same_of_image
    (Program.mem_preorder_trans nodeIn (Program.child_mem_preorder childIn))
    (Program.mem_preorder_trans laterIn (Program.child_mem_preorder otherIn))
    atChild.symm).id

theorem Bears.agrees_of_renumbers (same : old.SameUpToNumbering new) :
    before.Agrees after := by
  obtain ⟨image, paired⟩ := same
  have exists_alike : ∀ node ∈ before.preorder, ∃ later ∈ after.preorder,
      later.handle = image node.handle ∧ node.Alike later := by
    intro node nodeIn
    obtain ⟨later, laterIn, atImage, -⟩ :=
      paired.exists_node oldBears newBears nodeIn
    exact ⟨later, laterIn, atImage,
      oldBears.alike_of_renumbers newBears paired nodeIn laterIn atImage⟩
  constructor
  · intro id
    simp only [Program.identities, List.mem_map]
    constructor
    · rintro ⟨node, nodeIn, rfl⟩
      obtain ⟨later, laterIn, -, alike⟩ := exists_alike node nodeIn
      exact ⟨later, laterIn, alike.identity.symm⟩
    · rintro ⟨later, laterIn, rfl⟩
      obtain ⟨node, nodeIn, atImage⟩ :=
        paired.exists_origin oldBears newBears laterIn
      exact ⟨node, nodeIn, (oldBears.alike_of_renumbers newBears paired nodeIn
        laterIn atImage).identity⟩
  · intro node nodeIn later laterIn same
    obtain ⟨other, otherIn, -, alike⟩ := exists_alike node nodeIn
    obtain rfl := newBears.eq_of_identity laterIn otherIn
      (same.symm.trans alike.identity)
    exact alike

theorem Bears.parentOf_eq_of_agrees (agrees : before.Agrees after)
    (id : NodeId) : old.parentOf? id = new.parentOf? id := by
  rw [oldBears.parentOf_eq, newBears.parentOf_eq]
  refine Option.ext fun parent => ?_
  -- the holder of the child is in both, with the same children
  by_cases known : parent ∈ before.identities
  · obtain ⟨node, nodeIn, rfl⟩ := List.mem_map.mp known
    obtain ⟨later, laterIn, same⟩ :=
      List.mem_map.mp ((agrees.known _).mp known)
    have alike := agrees.alike node nodeIn later laterIn same.symm
    rw [← oldBears.mem_children_iff nodeIn, alike.children,
      newBears.mem_children_iff laterIn, same]
  · have unknown := mt (agrees.known parent).mpr known
    have holds_none : ∀ {tree : Tree α} {program : Located α},
        tree.Bears program → parent ∉ program.identities →
        tree.parentIds.lookup id ≠ some parent := by
      intro tree program bears notIn found
      obtain ⟨_, holder, isKin, -, rfl⟩ := bears.lookup_parent.mp found
      exact notIn (List.mem_map_of_mem (Program.mem_kinships.mp isKin).1)
    exact iff_of_false (holds_none oldBears known)
      (holds_none newBears unknown)

/-- Nothing can be told of programs that agree. -/
theorem Bears.diff_eq_nil_of_agrees (agrees : before.Agrees after) :
    old.diff new = [] := by
  have known : ∀ {id}, id ∈ old.identities ↔ id ∈ new.identities := by
    intro id
    rw [oldBears.identities_eq, newBears.identities_eq, agrees.known]
  have alike_of_named : ∀ {id : NodeId} {node later : Node α},
      old.named? id = some node → new.named? id = some later →
      node.tag = later.tag ∧ node.SaysSame later := by
    intro id node later wasNamed isNamed
    obtain ⟨node, nodeIn, rfl, rfl⟩ := oldBears.exists_of_named wasNamed
    obtain ⟨later, laterIn, same, rfl⟩ := newBears.exists_of_named isNamed
    have alike := agrees.alike node nodeIn later laterIn same.symm
    have tag := alike.tag
    exact ⟨by simpa [Node.tag, Program.node] using tag, alike.saysSame⟩
  rw [List.eq_nil_iff_forall_not_mem]
  intro patch patchIn
  rw [oldBears.mem_diff_iff newBears] at patchIn
  cases patch with
  | insert id parent => exact patchIn.2.1 (known.mpr patchIn.1)
  | remove id => exact patchIn.2 (known.mp patchIn.1)
  | restructure id =>
      obtain ⟨node, later, wasNamed, isNamed, differs⟩ := patchIn
      exact differs (alike_of_named wasNamed isNamed).1
  | update id =>
      obtain ⟨node, later, wasNamed, isNamed, -, differs⟩ := patchIn
      exact differs (alike_of_named wasNamed isNamed).2
  | move id source target =>
      obtain ⟨-, -, rfl, rfl, differs | ⟨parent, wasParent, isParent,
        rearranged⟩⟩ := patchIn
      · exact differs (oldBears.parentOf_eq_of_agrees newBears agrees id)
      obtain ⟨node, nodeIn, later, laterIn, same, rfl, -, -⟩ :=
        oldBears.exists_holders newBears wasParent isParent
      have alike := agrees.alike node nodeIn later laterIn same
      exact oldBears.not_rearranges newBears nodeIn laterIn same
        alike.childPlaces_eq rearranged

/-- Where nothing is told the programs agree. -/
theorem Bears.agrees_of_diff_eq_nil (quiet : old.diff new = []) :
    before.Agrees after := by
  have notTold : ∀ patch, ¬ old.Tells new patch := by
    intro patch told
    rw [← oldBears.mem_diff_iff newBears, quiet] at told
    cases told
  constructor
  · intro id
    rw [← oldBears.identities_eq, ← newBears.identities_eq]
    constructor
    · intro known
      by_contra isGone
      exact notTold (.remove id) ⟨known, isGone⟩
    · intro known
      by_contra isNew
      exact notTold (.insert id _) ⟨known, isNew, rfl⟩
  · intro node nodeIn later laterIn same
    refine alike_of_fresh oldBears newBears nodeIn laterIn same ?_
    rw [stale, quiet]
    exact List.not_mem_nil

omit [Scalar α] newBears in
/-- The root is the one node that is no child. -/
theorem Bears.root_of_lookup {node : Located α} (nodeIn : node ∈ before.preorder)
    (isTop : old.parentIds.lookup node.identity = none) : node = before := by
  rcases List.mem_cons.mp
    (before.preorder_perm_kinships.mem_iff.mp nodeIn) with isRoot | isChild
  · exact isRoot
  · obtain ⟨⟨child, parent⟩, isKin, rfl⟩ := List.mem_map.mp isChild
    have found := oldBears.lookup_parent.mpr ⟨child, parent, isKin, rfl, rfl⟩
    rw [isTop] at found
    cases found

/-- Programs that agree are stored alike but for the handles. -/
theorem Bears.renumbers_of_agrees (agrees : before.Agrees after) :
    old.SameUpToNumbering new := by
  let image : Handle → Handle := fun handle =>
    ((old.node? handle).bind fun node => new.find? node.id).getD handle
  have image_eq : ∀ node ∈ before.preorder, ∀ later ∈ after.preorder,
      node.identity = later.identity → image node.handle = later.handle := by
    intro node nodeIn later laterIn same
    have sameId : node.node.id = later.identity := same
    simp only [image, oldBears.holds node nodeIn, Option.bind_some, sameId,
      newBears.find_eq laterIn, Option.getD_some]
  have exists_later : ∀ node ∈ before.preorder, ∃ later ∈ after.preorder,
      image node.handle = later.handle ∧ node.Alike later := by
    intro node nodeIn
    obtain ⟨later, laterIn, same⟩ := List.mem_map.mp
      ((agrees.known _).mp (List.mem_map_of_mem nodeIn))
    exact ⟨later, laterIn, image_eq node nodeIn later laterIn same.symm,
      agrees.alike node nodeIn later laterIn same.symm⟩
  refine ⟨image, ⟨?mapsTo, ?injective, ?onto⟩, ?root, ?node⟩
  case mapsTo =>
    intro handle reached
    obtain ⟨node, nodeIn, rfl⟩ := oldBears.reaches_iff.mp reached
    obtain ⟨later, laterIn, atImage, -⟩ := exists_later node nodeIn
    exact newBears.reaches_iff.mpr ⟨later, laterIn, atImage.symm⟩
  case injective =>
    intro handle reached other otherReached same
    obtain ⟨node, nodeIn, rfl⟩ := oldBears.reaches_iff.mp reached
    obtain ⟨mate, mateIn, rfl⟩ := oldBears.reaches_iff.mp otherReached
    obtain ⟨later, laterIn, atImage, alike⟩ := exists_later node nodeIn
    obtain ⟨other, otherIn, atOther, otherAlike⟩ := exists_later mate mateIn
    obtain rfl := newBears.eq_of_handle laterIn otherIn
      (atImage.symm.trans (same.trans atOther))
    rw [oldBears.eq_of_identity nodeIn mateIn
      (alike.identity.trans otherAlike.identity.symm)]
  case onto =>
    intro handle reached
    obtain ⟨later, laterIn, rfl⟩ := newBears.reaches_iff.mp reached
    obtain ⟨node, nodeIn, same⟩ := List.mem_map.mp
      ((agrees.known _).mpr (List.mem_map_of_mem laterIn))
    exact ⟨node.handle, oldBears.reaches_iff.mpr ⟨node, nodeIn, rfl⟩,
      image_eq node nodeIn later laterIn same⟩
  case root =>
    obtain ⟨later, laterIn, atImage, alike⟩ :=
      exists_later before before.self_mem_preorder
    have isTop := oldBears.parentOf_eq_of_agrees newBears agrees before.identity
    rw [oldBears.parentOf_eq, newBears.parentOf_eq, oldBears.lookup_root,
      alike.identity] at isTop
    rw [oldBears.root, newBears.root,
      ← newBears.root_of_lookup laterIn isTop.symm, ← atImage]
    rfl
  case node =>
    rintro handle stored ⟨reached, isStored⟩
    obtain ⟨node, nodeIn, rfl⟩ := oldBears.reaches_iff.mp reached
    obtain ⟨later, laterIn, atImage, alike⟩ := exists_later node nodeIn
    obtain rfl := Option.some.inj
      ((oldBears.holds node nodeIn).symm.trans isStored)
    refine ⟨later.node, by rw [atImage, newBears.holds later laterIn],
      alike.identity, alike.text, alike.hint, alike.construct_eq ?_⟩
    rw [List.map_map]
    refine map_eq_map_of_keys alike.children.symm
      fun other otherIn child childIn same => ?_
    exact (image_eq child
      (Program.mem_preorder_trans nodeIn (Program.child_mem_preorder childIn))
      other
      (Program.mem_preorder_trans laterIn (Program.child_mem_preorder otherIn))
      same.symm).symm

theorem Bears.diff_eq_nil_iff :
    old.diff new = [] ↔ old.SameUpToNumbering new :=
  ⟨fun quiet => oldBears.renumbers_of_agrees newBears
      (oldBears.agrees_of_diff_eq_nil newBears quiet),
    fun same => oldBears.diff_eq_nil_of_agrees newBears
      (oldBears.agrees_of_renumbers newBears same)⟩

end Tree

/-! ## What the patches are -/

namespace Tree

variable {α : Type} [Scalar α]

/-- The patches between two trees that are well formed are all that can be told
of them, each once.  There is none exactly if both trees are the same but for
the handles and for what is out of reach. -/
theorem diff_exact {old new : Tree α} {oldLimit newLimit : Nat}
    (oldValid : old.validate oldLimit = .ok ())
    (newValid : new.validate newLimit = .ok ()) :
    (old.diff new).Nodup ∧
      (∀ patch, patch ∈ old.diff new ↔ old.Tells new patch) ∧
      (old.diff new = [] ↔ old.SameUpToNumbering new) := by
  obtain ⟨before, oldStores⟩ := exists_stores oldValid
  obtain ⟨after, newStores⟩ := exists_stores newValid
  exact ⟨oldStores.diff_nodup newStores.toBears,
    fun _ => oldStores.mem_diff_iff newStores.toBears,
    oldStores.diff_eq_nil_iff newStores.toBears⟩

/-- A decision between two steps, one of them in each branch. -/
def decided (consequent alternative : Handle) : Tree Rat :=
  ⟨#[⟨⟨"if", "ready?", none⟩, .decision (some consequent) (some alternative)⟩,
    ⟨⟨"go", "start", none⟩, .statement .expression⟩,
    ⟨⟨"stay", "wait", none⟩, .statement .expression⟩], some 0⟩

theorem diff_exact_swappedBranches :
    (decided 1 2).validate 8 = .ok () ∧ (decided 2 1).validate 8 = .ok () ∧
      ((decided 1 2).diff (decided 2 1)).Nodup ∧
      (∀ patch, patch ∈ (decided 1 2).diff (decided 2 1) ↔
        (decided 1 2).Tells (decided 2 1) patch) ∧
      ((decided 1 2).diff (decided 2 1) = [] ↔
        (decided 1 2).SameUpToNumbering (decided 2 1)) := by
  have oldValid : (decided 1 2).validate 8 = .ok () := by cbv
  have newValid : (decided 2 1).validate 8 = .ok () := by cbv
  exact ⟨oldValid, newValid, diff_exact oldValid newValid⟩

example : (decided 1 2).diff (decided 2 1) =
    [.move "stay" (some "if") (some "if"), .move "go" (some "if") (some "if")] := by
  cbv

end Tree

end Flowchart
