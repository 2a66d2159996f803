import Flowchart.Proofs.Revision.Renumbering
import Flowchart.Proofs.Layout.Visited

/-!
# What need not be done again

A node is unchanged if the last tree had one like it, with the same children in
the same places, and all that is below it is unchanged.  Exactly the
arrangements of the unchanged nodes are still there when a tree is measured.
-/

namespace Flowchart

/-! ## Unchanged nodes -/

namespace Tree

variable {α : Type} [Scalar α]

/-- What the old tree reaches at one handle looks like what the new one has at
the other, and the same places are filled with the same identities. -/
structure Keeps (old new : Tree α) (earlier handle : Handle) : Prop where
  node : ∃ node later, old.HasNode earlier node ∧
    new.node? handle = some later ∧ node.id = later.id ∧
    node.tag = later.tag ∧ node.SaysSame later
  children : old.childIds earlier = new.childIds handle

/-- The old tree has a node that is kept here, and so it is with all below. -/
inductive Unchanged (old new : Tree α) : Handle → Prop where
  | intro {earlier handle : Handle} : old.Keeps new earlier handle →
      (∀ name child, (name, child) ∈ new.children handle →
        Unchanged old new child) →
      Unchanged old new handle

omit [Scalar α] in
/-- The handles that a node refers to are those of its children. -/
theorem Bears.exists_child_iff {tree : Tree α}
    {program node : Located α} (bears : tree.Bears program)
    (nodeIn : node ∈ program.preorder) {handle : Handle} :
    (∃ name, (name, handle) ∈ tree.children node.handle) ↔
      ∃ child ∈ node.children, child.handle = handle := by
  have listed := (bears.holds_of_mem nodeIn).childHandles_eq
  rw [← List.mem_map, ← listed, List.mem_map]
  constructor
  · rintro ⟨name, listed⟩
    exact ⟨_, listed, rfl⟩
  · rintro ⟨⟨name, _⟩, listed, rfl⟩
    exact ⟨name, listed⟩

theorem Bears.unchanged_child {old new : Tree α}
    {program node child : Located α} (bears : new.Bears program)
    (nodeIn : node ∈ program.preorder) (childIn : child ∈ node.children)
    (unchanged : old.Unchanged new node.handle) :
    old.Unchanged new child.handle := by
  cases unchanged with
  | intro _ below =>
      obtain ⟨name, listed⟩ :=
        (bears.exists_child_iff nodeIn).mpr ⟨child, childIn, rfl⟩
      exact below name _ listed

section

variable {old new : Tree α} {before after : Located α}
  (oldBears : old.Bears before) (newBears : new.Bears after)

include oldBears newBears

theorem Bears.keeps_iff {node later : Located α}
    (nodeIn : node ∈ before.preorder) (laterIn : later ∈ after.preorder) :
    old.Keeps new node.handle later.handle ↔ node.Alike later := by
  have oldPlaces := (oldBears.holds_of_mem nodeIn).childIds_eq
  have newPlaces := (newBears.holds_of_mem laterIn).childIds_eq
  constructor
  · rintro ⟨⟨found, other, ⟨-, isFound⟩, isOther, id, tag, text, hint, kind,
      patterns⟩, children⟩
    rw [oldBears.holds node nodeIn] at isFound
    rw [newBears.holds later laterIn] at isOther
    cases isFound
    cases isOther
    rw [oldPlaces, newPlaces] at children
    refine ⟨id, ?_, text, hint, kind, patterns, ?_⟩
    · simpa [Node.tag, Program.node] using tag
    · rw [← Program.map_snd_childPlaces, children, Program.map_snd_childPlaces]
  · intro alike
    have tag := alike.tag
    refine ⟨⟨node.node, later.node, oldBears.hasNode nodeIn,
      newBears.holds later laterIn, alike.identity, ?_, alike.saysSame⟩, ?_⟩
    · simpa [Node.tag, Program.node] using tag
    · rw [oldPlaces, newPlaces, alike.childPlaces_eq]

theorem Bears.unchanged_iff {later : Located α}
    (laterIn : later ∈ after.preorder) :
    old.Unchanged new later.handle ↔ (∃ node ∈ before.preorder, node.Alike later) ∧
      ∀ child ∈ later.children, old.Unchanged new child.handle := by
  constructor
  · intro isUnchanged
    cases isUnchanged with
    | @intro earlier _ keeps unchanged =>
        obtain ⟨found, -, ⟨reached, -⟩, -⟩ := keeps.node
        obtain ⟨node, nodeIn, rfl⟩ := oldBears.reaches_iff.mp reached
        refine ⟨⟨node, nodeIn,
          (oldBears.keeps_iff newBears nodeIn laterIn).mp keeps⟩, ?_⟩
        intro child childIn
        obtain ⟨name, listed⟩ :=
          (newBears.exists_child_iff laterIn).mpr ⟨child, childIn, rfl⟩
        exact unchanged name _ listed
  · rintro ⟨⟨node, nodeIn, alike⟩, unchanged⟩
    refine .intro ((oldBears.keeps_iff newBears nodeIn laterIn).mpr alike) ?_
    intro name child listed
    obtain ⟨inner, innerIn, rfl⟩ := (newBears.exists_child_iff laterIn).mp ⟨name, listed⟩
    exact unchanged inner innerIn

/-- All below a node that is unchanged had a node like it before. -/
theorem Bears.alike_of_unchanged {later inner : Located α}
    (laterIn : later ∈ after.preorder) (innerIn : inner ∈ later.preorder)
    (unchanged : old.Unchanged new later.handle) :
    ∃ node ∈ before.preorder, node.Alike inner := by
  induction later using Program.childrenInduction with
  | step later ih =>
    obtain ⟨kept, below⟩ := (oldBears.unchanged_iff newBears laterIn).mp unchanged
    rcases Program.mem_preorder_iff.mp innerIn with rfl | ⟨child, childIn, inChild⟩
    · exact kept
    · exact ih child childIn
        (Program.mem_preorder_trans laterIn (Program.child_mem_preorder childIn))
        inChild (below child childIn)

end

end Tree

/-! ## What is dropped -/

namespace Tree

variable {α : Type} [Scalar α] {old new : Tree α} {before after : Located α}

omit [Scalar α] in
/-- The ways up to a node start below it. -/
theorem Bears.exists_below (bears : new.Bears after)
    {later : Located α} (laterIn : later ∈ after.preorder) {fuel : Nat}
    {start : Option NodeId}
    (isAbove : later.identity ∈ new.parentIds.chain fuel start) :
    ∃ inner ∈ later.preorder, start = some inner.identity := by
  induction fuel generalizing start with
  | zero => cases isAbove
  | succ fuel ih =>
      cases start with
      | none => cases isAbove
      | some id =>
          rw [Parents.chain_some] at isAbove
          rcases List.mem_cons.mp isAbove with rfl | isAbove
          · exact ⟨later, later.self_mem_preorder, rfl⟩
          · obtain ⟨inner, innerIn, isParent⟩ := ih isAbove
            obtain ⟨child, parent, isKin, rfl, same⟩ :=
              bears.lookup_parent.mp isParent
            obtain ⟨parentIn, childIn⟩ := Program.mem_kinships.mp isKin
            obtain rfl := bears.eq_of_identity parentIn
              (Program.mem_preorder_trans laterIn innerIn) same
            exact ⟨child, Program.mem_preorder_trans innerIn
              (Program.child_mem_preorder childIn), rfl⟩

section

variable (oldBears : old.Bears before) (newBears : new.Bears after)
  {node later : Located α} (nodeIn : node ∈ before.preorder)
  (laterIn : later ∈ after.preorder) (alike : node.Alike later)

include oldBears newBears nodeIn laterIn alike

/-- A node has the same children as the one like it. -/
theorem Bears.parentOf_iff_of_alike (id : NodeId) :
    old.parentOf? id = some later.identity ↔
      new.parentOf? id = some later.identity := by
  rw [oldBears.parentOf_eq, newBears.parentOf_eq,
    ← newBears.mem_children_iff laterIn, ← alike.children,
    oldBears.mem_children_iff nodeIn, alike.identity]

/-- No patch asks for a way up from a node that looks like it did. -/
theorem Bears.not_start_of_alike {patch : Patch} (patchIn : patch ∈ old.diff new) :
    some later.identity ∉ Parents.starts old.parentIds patch := by
  have sameParent := oldBears.parentOf_iff_of_alike newBears nodeIn laterIn alike
  have wasNamed := oldBears.named_eq nodeIn
  have isNamed := newBears.named_eq laterIn
  have reached : later.identity ∈ new.identities :=
    newBears.mem_identities.mpr ⟨later, laterIn, rfl⟩
  rw [alike.identity] at wasNamed
  rw [oldBears.mem_diff_iff newBears] at patchIn
  intro isStart
  cases patch with
  | insert id parent =>
      obtain ⟨-, isNew, rfl⟩ := patchIn
      have isParent := (List.mem_singleton.mp isStart).symm
      exact isNew (oldBears.mem_identities_of_parent ((sameParent _).mpr isParent))
  | remove id =>
      obtain ⟨-, isGone⟩ := patchIn
      simp only [Parents.starts, List.mem_cons, Option.some.injEq,
        List.not_mem_nil, or_false] at isStart
      rcases isStart with rfl | wasParent
      · exact isGone reached
      · rw [← oldBears.parentOf_eq] at wasParent
        exact isGone
          (newBears.mem_identities_of_parent ((sameParent _).mp wasParent.symm))
  | restructure id =>
      obtain ⟨earlier, found, wasFound, isFound, differs⟩ := patchIn
      obtain rfl := Option.some.inj (List.mem_singleton.mp isStart)
      rw [wasNamed] at wasFound
      rw [isNamed] at isFound
      cases wasFound
      cases isFound
      have tag := alike.tag
      exact differs (by simpa [Node.tag, Program.node] using tag)
  | update id =>
      obtain ⟨earlier, found, wasFound, isFound, -, differs⟩ := patchIn
      obtain rfl := Option.some.inj (List.mem_singleton.mp isStart)
      rw [wasNamed] at wasFound
      rw [isNamed] at isFound
      cases wasFound
      cases isFound
      exact differs alike.saysSame
  | move id source target =>
      obtain ⟨-, -, rfl, rfl, moved⟩ := patchIn
      have both : old.parentOf? id = some later.identity ∧
          new.parentOf? id = some later.identity := by
        simp only [Parents.starts, List.mem_cons, List.not_mem_nil, or_false]
          at isStart
        rcases isStart with wasParent | isParent
        · exact ⟨wasParent.symm, (sameParent _).mp wasParent.symm⟩
        · exact ⟨(sameParent _).mpr isParent.symm, isParent.symm⟩
      rcases moved with differs | ⟨parent, wasParent, -, rearranged⟩
      · exact differs (both.1.trans both.2.symm)
      · obtain rfl := Option.some.inj (both.1.symm.trans wasParent)
        exact oldBears.not_rearranges newBears nodeIn laterIn alike.identity
          alike.childPlaces_eq rearranged

end

/-- The arrangements that are not dropped are those of unchanged nodes. -/
theorem Bears.unchanged_iff_fresh (oldBears : old.Bears before)
    (newBears : new.Bears after) {later : Located α}
    (laterIn : later ∈ after.preorder) :
    old.Unchanged new later.handle ↔
      later.identity ∈ before.identities ∧ later.identity ∉ old.stale new := by
  constructor
  · intro unchanged
    constructor
    · obtain ⟨node, nodeIn, alike⟩ := oldBears.alike_of_unchanged newBears
        laterIn later.self_mem_preorder unchanged
      exact alike.identity ▸ List.mem_map_of_mem nodeIn
    · intro isStale
      obtain ⟨patch, patchIn, isAffected⟩ := List.mem_flatMap.mp isStale
      rw [Parents.affected_eq] at isAffected
      obtain ⟨start, isStart, isAbove⟩ := List.mem_flatMap.mp isAffected
      obtain ⟨inner, innerIn, rfl⟩ := newBears.exists_below laterIn isAbove
      obtain ⟨node, nodeIn, alike⟩ := oldBears.alike_of_unchanged newBears
        laterIn innerIn unchanged
      exact oldBears.not_start_of_alike newBears nodeIn
        (Program.mem_preorder_trans laterIn innerIn) alike patchIn isStart
  · rintro ⟨known, isFresh⟩
    induction later using Program.childrenInduction with
    | step later ih =>
      obtain ⟨node, nodeIn, same⟩ := List.mem_map.mp known
      have alike := alike_of_fresh oldBears newBears nodeIn laterIn same isFresh
      refine (oldBears.unchanged_iff newBears laterIn).mpr
        ⟨⟨node, nodeIn, alike⟩, fun child childIn => ?_⟩
      refine ih child childIn
        (Program.mem_preorder_trans laterIn (Program.child_mem_preorder childIn))
        ?_ fun isStale => isFresh (newBears.stale_of_child laterIn childIn isStale)
      have isChild := List.mem_map_of_mem (f := Program.identity) childIn
      rw [← alike.children] at isChild
      obtain ⟨mate, mateIn, sameChild⟩ := List.mem_map.mp isChild
      exact List.mem_map.mpr ⟨mate, Program.mem_preorder_trans nodeIn
        (Program.child_mem_preorder mateIn), sameChild⟩

end Tree

end Flowchart
