import Flowchart.Proofs.Tree.Traversal

/-!
# Taking a statement out of a block

A well-formed tree stays well formed when a member is taken out of a block.  What
is left is reached by the ways that led to it before, though the members behind
the gap move up and so change their places; the walk loses what is below the
member and nothing else.  Putting the member back where it was gives the tree as
it was.
-/

namespace Flowchart

theorem Construct.mem_children_block {members : List Handle} {name : SlotName}
    {child : Handle} :
    (name, child) ∈ (Construct.block members).children ↔
      ∃ rank, name = .member rank ∧ members[rank]? = some child := by
  rw [children, slots, List.mem_filterMap]
  constructor
  · rintro ⟨slot, slotIn, isEntry⟩
    obtain ⟨rank, inside, rfl⟩ := List.mem_mapIdx.mp slotIn
    obtain ⟨rfl, rfl⟩ : SlotName.member rank = name ∧ members[rank] = child := by
      simpa using isEntry
    exact ⟨rank, rfl, List.getElem?_eq_getElem inside⟩
  · rintro ⟨rank, rfl, isMember⟩
    obtain ⟨inside, rfl⟩ := List.getElem?_eq_some_iff.mp isMember
    exact ⟨⟨.member rank, some members[rank], true⟩,
      List.mem_mapIdx.mpr ⟨rank, inside, rfl⟩, rfl⟩

namespace Tree

variable {α : Type} {tree : Tree α} {block handle child : Handle}
  {members : List Handle} {index : Nat} {node : Node α}

/-! ## One construct replaced -/

theorem node?_setConstruct (tree : Tree α) (handle other : Handle)
    (construct : Construct) :
    (tree.setConstruct handle construct).node? other =
      if handle = other then
        (tree.node? other).map fun node => { node with construct }
      else tree.node? other :=
  Array.getElem?_modify

theorem members?_eq_some_iff :
    tree.members? block = some members ↔
      ∃ node, tree.node? block = some node ∧ node.construct = .block members := by
  unfold members?
  cases tree.node? block with
  | none => simp
  | some node => cases isConstruct : node.construct <;> simp [isConstruct]

theorem fills_block_iff (isBlock : tree.members? block = some members)
    {name : SlotName} :
    tree.Fills (block, name) child ↔
      ∃ rank, name = .member rank ∧ members[rank]? = some child := by
  obtain ⟨node, isNode, isConstruct⟩ := members?_eq_some_iff.mp isBlock
  rw [fills_iff, children_of_node isNode, isConstruct, Construct.mem_children_block]

/-! ## A block with a member less -/

/-- The tree without the member at an index of a block. -/
def without (tree : Tree α) (block : Handle) (members : List Handle)
    (index : Nat) : Tree α :=
  tree.setConstruct block (.block (members.eraseIdx index))

/-- Where a place was before the member at the index was taken out. -/
def placeBefore (block : Handle) (index : Nat) : Place → Place
  | (holder, .member rank) =>
      (holder, .member (if holder = block ∧ index ≤ rank then rank + 1 else rank))
  | place => place

theorem fst_placeBefore (block : Handle) (index : Nat) (place : Place) :
    (placeBefore block index place).1 = place.1 := by
  unfold placeBefore
  split <;> rfl

theorem placeBefore_injective : (placeBefore block index).Injective := by
  rintro ⟨holder, name⟩ ⟨other, otherName⟩ same
  obtain rfl : holder = other := by
    simpa [fst_placeBefore] using congrArg Prod.fst same
  cases name <;> cases otherName <;> simp [placeBefore] at same ⊢ <;> grind

section

variable (isBlock : tree.members? block = some members)

include isBlock

theorem members?_without :
    (tree.without block members index).members? block =
      some (members.eraseIdx index) := by
  obtain ⟨node, isNode, -⟩ := members?_eq_some_iff.mp isBlock
  refine members?_eq_some_iff.mpr
    ⟨{ node with construct := .block (members.eraseIdx index) }, ?_, rfl⟩
  rw [without, node?_setConstruct, if_pos rfl, isNode]
  rfl

/-- The nodes keep their labels and their kinds. -/
theorem exists_node_of_without {other : Node α}
    (isOther : (tree.without block members index).node? handle = some other) :
    ∃ node, tree.node? handle = some node ∧ other.toLabel = node.toLabel ∧
      other.tag = node.tag ∧
      (other.construct = node.construct ∨
        other.construct = .block (members.eraseIdx index)) := by
  rw [without, node?_setConstruct] at isOther
  split at isOther
  · subst handle
    obtain ⟨node, isNode, isConstruct⟩ := members?_eq_some_iff.mp isBlock
    rw [isNode] at isOther
    obtain rfl := Option.some.inj isOther
    refine ⟨node, isNode, rfl, ?_, .inr rfl⟩
    rw [Node.tag, Node.tag, isConstruct]
    rfl
  · exact ⟨other, isOther, rfl, rfl, .inl rfl⟩

theorem exists_node_without (isNode : tree.node? handle = some node) :
    ∃ other, (tree.without block members index).node? handle = some other ∧
      other.tag = node.tag := by
  have isStored : ((tree.without block members index).node? handle).isSome := by
    rw [without, node?_setConstruct, isNode]
    split <;> rfl
  obtain ⟨other, isOther⟩ := Option.isSome_iff_exists.mp isStored
  obtain ⟨found, isFound, -, sameTag, -⟩ := exists_node_of_without isBlock isOther
  obtain rfl := Option.some.inj (isNode.symm.trans isFound)
  exact ⟨other, isOther, sameTag⟩

theorem fills_of_without {place : Place}
    (fills : (tree.without block members index).Fills place child) :
    tree.Fills (placeBefore block index place) child := by
  obtain ⟨holder, name⟩ := place
  by_cases isHere : holder = block
  · subst holder
    obtain ⟨rank, rfl, isMember⟩ :=
      (fills_block_iff (members?_without isBlock)).mp fills
    rw [placeBefore, fills_block_iff isBlock]
    refine ⟨_, rfl, ?_⟩
    rw [List.getElem?_eraseIdx] at isMember
    split at isMember
    · rwa [if_neg (by omega)]
    · rwa [if_pos ⟨rfl, by omega⟩]
  · have samePlace : placeBefore block index (holder, name) = (holder, name) := by
      cases name <;> simp [placeBefore, isHere]
    have sameNode : (tree.without block members index).node? holder =
        tree.node? holder := by
      rw [without, node?_setConstruct, if_neg (Ne.symm isHere)]
    rw [samePlace]
    unfold Fills filled children at fills ⊢
    rwa [sameNode] at fills

/-- The ways that are left were there before. -/
theorem wayTo_of_without {above : List Handle}
    (way : (tree.without block members index).WayTo above handle) :
    tree.WayTo above handle := by
  induction way with
  | root isRoot => exact .root isRoot
  | child _ fills ih =>
      rw [← fst_placeBefore block index] at ih ⊢
      exact ih.child (fills_of_without isBlock fills)

theorem reaches_of_without (reached : (tree.without block members index).Reaches handle) :
    tree.Reaches handle := by
  obtain ⟨above, way⟩ := reached
  exact ⟨above, wayTo_of_without isBlock way⟩

theorem reaches_placeBefore {place : Place}
    (reached : (tree.without block members index).Reaches place.1) :
    tree.Reaches (placeBefore block index place).1 := by
  rw [fst_placeBefore]
  exact reaches_of_without isBlock reached

theorem mayDeclare_without {above : List Handle} (may : tree.MayDeclare above) :
    (tree.without block members index).MayDeclare above := by
  have hasTag : ∀ {handle : Handle} {tag : Tag}, tree.HasTag handle tag →
      (tree.without block members index).HasTag handle tag := by
    rintro handle tag ⟨node, isNode, rfl⟩
    obtain ⟨other, isOther, sameTag⟩ := exists_node_without isBlock isNode
    exact ⟨other, isOther, sameTag⟩
  cases may with
  | root => exact .root
  | body isService => exact .body (hasTag isService)
  | rootMember holds => exact .rootMember (hasTag holds)
  | bodyMember holds isService => exact .bodyMember (hasTag holds) (hasTag isService)

theorem Unshared.without (unshared : tree.Unshared) :
    (tree.without block members index).Unshared where
  heldOnce := by
    rintro handle ⟨above, way⟩ notRoot
    cases way with
    | root isRoot => exact absurd isRoot notRoot
    | @child above place _ way fills =>
        have held := unshared.heldOnce handle
          ⟨_, wayTo_of_without isBlock (way.child fills)⟩ notRoot
        refine ⟨place, ⟨⟨above, way⟩, fills⟩, fun other otherHolds => ?_⟩
        exact placeBefore_injective (held.unique
          ⟨reaches_placeBefore isBlock otherHolds.1,
            fills_of_without isBlock otherHolds.2⟩
          ⟨reaches_placeBefore isBlock ⟨above, way⟩, fills_of_without isBlock fills⟩)
  rootFree := fun root _ isRoot reached fills =>
    unshared.rootFree root _ isRoot (reaches_placeBefore isBlock reached)
      (fills_of_without isBlock fills)

theorem WellFormed.without [Scalar α] {limit : Nat} (formed : tree.WellFormed limit) :
    (tree.without block members index).WellFormed limit where
  toUnshared := formed.toUnshared.without isBlock
  rooted := by
    obtain ⟨root, node, isRoot, isNode⟩ := formed.rooted
    obtain ⟨other, isOther, -⟩ := exists_node_without isBlock isNode
    exact ⟨root, other, isRoot, isOther⟩
  stored := by
    intro place child reached fills
    obtain ⟨node, isNode⟩ := formed.stored _ child
      (reaches_placeBefore isBlock reached) (fills_of_without isBlock fills)
    obtain ⟨other, isOther, -⟩ := exists_node_without isBlock isNode
    exact ⟨other, isOther⟩
  identified := by
    rintro handle other node otherNode ⟨reached, isNode⟩ ⟨otherReached, isOther⟩ sameId
    obtain ⟨first, isFirst, firstLabel, -⟩ := exists_node_of_without isBlock isNode
    obtain ⟨second, isSecond, secondLabel, -⟩ :=
      exists_node_of_without isBlock isOther
    refine formed.identified handle other first second
      ⟨reaches_of_without isBlock reached, isFirst⟩
      ⟨reaches_of_without isBlock otherReached, isSecond⟩ ?_
    rw [← firstLabel, ← secondLabel, sameId]
  modest := by
    rintro handle node hint ⟨reached, isNode⟩ hinted
    obtain ⟨found, isFound, sameLabel, -⟩ := exists_node_of_without isBlock isNode
    rw [sameLabel] at hinted
    exact formed.modest handle found hint
      ⟨reaches_of_without isBlock reached, isFound⟩ hinted
  complete := by
    rintro handle node slot ⟨reached, isNode⟩ slotIn required
    obtain ⟨found, isFound, -, -, sameConstruct | isShorter⟩ :=
      exists_node_of_without isBlock isNode
    · rw [sameConstruct] at slotIn
      exact formed.complete handle found slot
        ⟨reaches_of_without isBlock reached, isFound⟩ slotIn required
    · rw [isShorter] at slotIn
      obtain ⟨rank, inside, rfl⟩ := List.mem_mapIdx.mp slotIn
      exact Option.some_ne_none _
  armed := by
    rintro handle node ⟨reached, isNode⟩ noArms
    obtain ⟨found, isFound, -, -, sameConstruct | isShorter⟩ :=
      exists_node_of_without isBlock isNode
    · exact formed.armed handle found
        ⟨reaches_of_without isBlock reached, isFound⟩ (sameConstruct ▸ noArms)
    · rw [isShorter] at noArms
      cases noArms
  placed := by
    intro above handle node way isNode declared
    obtain ⟨found, isFound, -, sameTag, -⟩ := exists_node_of_without isBlock isNode
    exact mayDeclare_without isBlock (formed.placed above handle found
      (wayTo_of_without isBlock way) isFound (sameTag ▸ declared))
  shallow := fun above handle way =>
    formed.shallow above handle (wayTo_of_without isBlock way)

end

/-! ## What lies below a member -/

section

variable {start : Handle}

theorem Reaches.trans (reached : tree.Reaches start)
    (isBelow : (tree.setRoot start).Reaches handle) : tree.Reaches handle := by
  obtain ⟨above, way⟩ := isBelow
  induction way with
  | root isRoot => exact Option.some.inj isRoot ▸ reached
  | child _ fills ih => exact ih.child fills

end

/-! ## The walk without a member -/

section

variable (isBlock : tree.members? block = some members)

include isBlock

variable (unshared : tree.Unshared) (reached : tree.Reaches block)

include unshared reached

end

/-! ## Taken out and put back -/

variable [Scalar α] {limit : Nat}

/-- Whatever a well-formed tree reaches is stored. -/
theorem WellFormed.exists_node (formed : tree.WellFormed limit)
    (reached : tree.Reaches handle) : ∃ node, tree.node? handle = some node := by
  obtain ⟨above, way⟩ := reached
  cases way with
  | root isRoot =>
      obtain ⟨root, node, isFound, isNode⟩ := formed.rooted
      obtain rfl := Option.some.inj (isRoot.symm.trans isFound)
      exact ⟨node, isNode⟩
  | child way fills => exact formed.stored _ handle ⟨_, way⟩ fills

end Tree

end Flowchart
