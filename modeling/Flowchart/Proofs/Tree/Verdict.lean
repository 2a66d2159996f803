import Flowchart.Proofs.Tree.WellFormed

/-!
# What validation decides

A well-formed tree is described through the ways that lead down from its root.
Validation accepts exactly the well-formed trees, and the defect that it reports
of another one is there.  Both come from one invariant of the check: the nodes
entered so far and those still to be entered are the root and what the nodes
entered so far hold, each as often.
-/

namespace Flowchart

/-- A hint that a node may carry. -/
structure Size.IsModest {α : Type} [Scalar α] (size : Size α) : Prop where
  finite : Scalar.isFinite size.width = true ∧ Scalar.isFinite size.height = true
  width : Scalar.zero ≤ size.width ∧
    size.width ≤ Scalar.ofNat Label.greatestHint
  height : Scalar.zero ≤ size.height ∧
    size.height ≤ Scalar.ofNat Label.greatestHint

theorem Label.hasValidHint_iff {α : Type} [Scalar α] {label : Label α} :
    label.hasValidHint = true ↔
      ∀ hint, label.hint = some hint → hint.IsModest := by
  unfold Label.hasValidHint
  cases label.hint with
  | none => simp
  | some hint =>
      simp only [Size.isValid, Bool.and_eq_true, decide_eq_true_eq,
        Option.some.injEq, forall_eq']
      constructor
      · rintro ⟨⟨⟨⟨⟨finiteWidth, finiteHeight⟩, width⟩, height⟩, widthLe⟩, heightLe⟩
        exact ⟨⟨finiteWidth, finiteHeight⟩, ⟨width, widthLe⟩, height, heightLe⟩
      · rintro ⟨⟨finiteWidth, finiteHeight⟩, ⟨width, widthLe⟩, height, heightLe⟩
        exact ⟨⟨⟨⟨⟨finiteWidth, finiteHeight⟩, width⟩, height⟩, widthLe⟩, heightLe⟩

namespace Tree

variable {α : Type}

/-! ## Ways through a tree -/

/-- A place for a child: the node that has it, and what it is called there. -/
abbrev Place := Handle × SlotName

/-- The places of a node that are filled, with what fills them. -/
def filled (tree : Tree α) (holder : Handle) : List (Place × Handle) :=
  (tree.children holder).map fun (name, child) => ((holder, name), child)

def Fills (tree : Tree α) (place : Place) (child : Handle) : Prop :=
  (place, child) ∈ tree.filled place.1

/-- A way down from the root to a handle, with the handles passed on it, the
nearest first. -/
inductive WayTo (tree : Tree α) : List Handle → Handle → Prop where
  | root {root : Handle} : tree.root = some root → WayTo tree [] root
  | child {above : List Handle} {place : Place} {child : Handle} :
      WayTo tree above place.1 → tree.Fills place child →
      WayTo tree (place.1 :: above) child

def Reaches (tree : Tree α) (handle : Handle) : Prop :=
  ∃ above, tree.WayTo above handle

/-- A node that the tree reaches at a handle. -/
def HasNode (tree : Tree α) (handle : Handle) (node : Node α) : Prop :=
  tree.Reaches handle ∧ tree.node? handle = some node

def HasTag (tree : Tree α) (handle : Handle) (tag : Tag) : Prop :=
  ∃ node, tree.node? handle = some node ∧ node.tag = tag

/-- Where a declaration may stand, by the handles above it. -/
inductive MayDeclare (tree : Tree α) : List Handle → Prop where
  | root : MayDeclare tree []
  | body {service : Handle} {above : List Handle} :
      tree.HasTag service (.container .service) →
      MayDeclare tree (service :: above)
  | rootMember {block : Handle} : tree.HasTag block .block →
      MayDeclare tree [block]
  | bodyMember {block service : Handle} {above : List Handle} :
      tree.HasTag block .block → tree.HasTag service (.container .service) →
      MayDeclare tree (block :: service :: above)

theorem mayHoldDeclaration_iff {tree : Tree α} {above : List Handle} :
    tree.mayHoldDeclaration above = true ↔ tree.MayDeclare above := by
  have tagged : ∀ handle tag, (tree.node? handle).map Node.tag = some tag ↔
      tree.HasTag handle tag := by
    intro handle tag
    rw [Option.map_eq_some_iff]
    rfl
  constructor
  · intro holds
    cases above with
    | nil => exact .root
    | cons parent earlier =>
        simp only [mayHoldDeclaration] at holds
        split at holds
        · exact .body ((tagged _ _).mp ‹_›)
        · have isBlock := (tagged _ _).mp ‹(tree.node? parent).map Node.tag = some .block›
          cases earlier with
          | nil => exact .rootMember isBlock
          | cons grandparent others =>
              exact .bodyMember isBlock
                ((tagged _ _).mp (of_decide_eq_true holds))
        · cases holds
  · intro may
    cases may with
    | root => rfl
    | body isService =>
        simp [mayHoldDeclaration, (tagged _ _).mpr isService]
    | rootMember isBlock =>
        simp [mayHoldDeclaration, (tagged _ _).mpr isBlock]
    | bodyMember isBlock isService =>
        simp [mayHoldDeclaration, (tagged _ _).mpr isBlock,
          (tagged _ _).mpr isService]

variable [Scalar α]

omit [Scalar α] in
/-- Every node that is reached hangs in one place, and the root in none. -/
structure Unshared (tree : Tree α) : Prop where
  heldOnce : ∀ handle, tree.Reaches handle → tree.root ≠ some handle →
    ∃! place : Place, tree.Reaches place.1 ∧ tree.Fills place handle
  rootFree : ∀ root place, tree.root = some root → tree.Reaches place.1 →
    ¬ tree.Fills place root

/-- A tree as it should be. -/
structure WellFormed (tree : Tree α) (limit : Nat) : Prop
    extends tree.Unshared where
  rooted : ∃ root node, tree.root = some root ∧ tree.node? root = some node
  stored : ∀ place child, tree.Reaches place.1 → tree.Fills place child →
    ∃ node, tree.node? child = some node
  identified : ∀ handle other node otherNode, tree.HasNode handle node →
    tree.HasNode other otherNode → node.id = otherNode.id → handle = other
  modest : ∀ handle node hint, tree.HasNode handle node →
    node.hint = some hint → hint.IsModest
  complete : ∀ handle node slot, tree.HasNode handle node →
    slot ∈ node.construct.slots → slot.required = true → slot.child ≠ none
  armed : ∀ handle node, tree.HasNode handle node →
    node.construct ≠ .selection []
  placed : ∀ above handle node, tree.WayTo above handle →
    tree.node? handle = some node → node.tag.isDeclaration = true →
    tree.MayDeclare above
  shallow : ∀ above handle, tree.WayTo above handle → above.length ≤ limit

/-- A tree has the defect that is reported of it. -/
def HasDefect (tree : Tree α) (limit : Nat) : Defect → Prop
  | .emptyTree => ∀ root, tree.root = some root → tree.node? root = none
  | .danglingReference id name child => ∃ handle node, tree.HasNode handle node ∧
      node.id = id ∧ tree.Fills (handle, name) child ∧ tree.node? child = none
  | .sharedNode id => ∃ handle node above, tree.HasNode handle node ∧
      node.id = id ∧ tree.WayTo above handle ∧ handle ∉ above ∧
      ∃ first second : Place, first ≠ second ∧
        (tree.Reaches first.1 ∧ tree.Fills first handle) ∧
        tree.Reaches second.1 ∧ tree.Fills second handle
  | .cycle id => ∃ handle node above, tree.node? handle = some node ∧
      node.id = id ∧ tree.WayTo above handle ∧ handle ∈ above
  | .duplicateId id => ∃ handle other node otherNode, handle ≠ other ∧
      tree.HasNode handle node ∧ tree.HasNode other otherNode ∧
      node.id = id ∧ otherNode.id = id
  | .missingSlot id tag name => ∃ handle node slot, tree.HasNode handle node ∧
      node.id = id ∧ node.tag = tag ∧ slot ∈ node.construct.slots ∧
      slot.name = name ∧ slot.required = true ∧ slot.child = none
  | .emptySelection id => ∃ handle node, tree.HasNode handle node ∧
      node.id = id ∧ node.construct = .selection []
  | .misplacedDeclaration id tag => ∃ handle node above,
      tree.WayTo above handle ∧ tree.node? handle = some node ∧ node.id = id ∧
      node.tag = tag ∧ tag.isDeclaration = true ∧ ¬ tree.MayDeclare above
  | .tooDeep id depth => depth = limit ∧ ∃ handle node above,
      tree.WayTo above handle ∧ tree.node? handle = some node ∧ node.id = id ∧
      limit < above.length
  | .invalidHint id => ∃ handle node hint, tree.HasNode handle node ∧
      node.id = id ∧ node.hint = some hint ∧ ¬ hint.IsModest

/-! ## Places -/

omit [Scalar α] in
theorem mem_filled {tree : Tree α} {handle : Handle} {place : Place}
    {child : Handle} :
    (place, child) ∈ tree.filled handle ↔
      place.1 = handle ∧ tree.Fills place child := by
  constructor
  · intro fills
    obtain ⟨entry, entryIn, same⟩ := List.mem_map.mp fills
    obtain ⟨rfl, rfl⟩ := Prod.mk.inj same
    exact ⟨rfl, fills⟩
  · rintro ⟨rfl, fills⟩
    exact fills

private theorem names_sublist (slots : List Slot) :
    ((slots.filterMap fun slot =>
      slot.child.map fun child => (slot.name, child)).map Prod.fst).Sublist
        (slots.map Slot.name) := by
  induction slots with
  | nil => exact .slnil
  | cons slot rest ih =>
      cases holds : slot.child with
      | none =>
          rw [List.filterMap_cons_none (by rw [holds]; rfl)]
          exact ih.cons _
      | some child =>
          rw [List.filterMap_cons_some (by rw [holds]; rfl)]
          exact ih.cons_cons _

theorem slotNames_nodup (construct : Construct) :
    (construct.slots.map Slot.name).Nodup := by
  have numbered : ∀ {β : Type} (items : List β) (name : Nat → SlotName)
      (slot : Nat → β → Slot), (∀ index item, (slot index item).name = name index) →
      Function.Injective name → ((items.mapIdx slot).map Slot.name).Nodup := by
    intro β items name slot named injective
    rw [List.nodup_iff_injective_getElem]
    intro first second same
    simp only [List.getElem_map, List.getElem_mapIdx, named] at same
    exact Fin.ext (injective same)
  cases construct with
  | block members =>
      exact numbered members SlotName.member _ (fun _ _ => rfl) fun _ _ same => by
        cases same
        rfl
  | selection arms =>
      exact numbered arms SlotName.arm _ (fun _ _ => rfl) fun _ _ same => by
        cases same
        rfl
  | _ => simp [Construct.slots]

omit [Scalar α] in
/-- No place is listed twice. -/
theorem places_nodup (tree : Tree α) {handles : List Handle}
    (distinct : handles.Nodup) :
    ((handles.flatMap tree.filled).map Prod.fst).Nodup := by
  rw [List.map_flatMap, List.nodup_flatMap]
  constructor
  · intro handle _
    rw [filled, List.map_map]
    have names : ((tree.children handle).map Prod.fst).Nodup := by
      unfold Tree.children
      split
      · exact (slotNames_nodup _).sublist (names_sublist _)
      · exact List.nodup_nil
    have pairs := names.map (f := Prod.mk handle) fun _ _ same =>
      (Prod.mk.inj same).2
    rw [List.map_map] at pairs
    exact pairs
  · refine distinct.imp fun {first second} different place inFirst inSecond => ?_
    obtain ⟨entry, entryIn, rfl⟩ := List.mem_map.mp inFirst
    obtain ⟨other, otherIn, same⟩ := List.mem_map.mp inSecond
    have isFirst := (mem_filled.mp entryIn).1
    have isSecond := (mem_filled.mp otherIn).1
    rw [same, isFirst] at isSecond
    exact different isSecond

private theorem exists_two_keys {κ β : Type} [DecidableEq β]
    {entries : List (κ × β)} (distinct : (entries.map Prod.fst).Nodup) {value : β}
    (twice : 2 ≤ (entries.map Prod.snd).count value) :
    ∃ first second, first ≠ second ∧ (first, value) ∈ entries ∧
      (second, value) ∈ entries := by
  induction entries with
  | nil => simp at twice
  | cons entry rest ih =>
      obtain ⟨key, found⟩ := entry
      obtain ⟨keyNew, restDistinct⟩ := List.nodup_cons.mp distinct
      by_cases same : found = value
      · subst same
        have again : found ∈ rest.map Prod.snd := by
          rw [List.map_cons, List.count_cons_self] at twice
          exact List.count_pos_iff.mp (by omega)
        obtain ⟨⟨other, _⟩, otherIn, rfl⟩ := List.mem_map.mp again
        refine ⟨key, other, ?_, List.mem_cons_self,
          List.mem_cons_of_mem _ otherIn⟩
        rintro rfl
        exact keyNew (List.mem_map_of_mem otherIn)
      · rw [List.map_cons, List.count_cons_of_ne same] at twice
        obtain ⟨first, second, different, firstIn, secondIn⟩ :=
          ih restDistinct twice
        exact ⟨first, second, different, List.mem_cons_of_mem _ firstIn,
          List.mem_cons_of_mem _ secondIn⟩

/-! ## Well-formed trees have no defect -/

namespace WayTo

variable {tree : Tree α} {above other : List Handle} {handle ancestor : Handle}

omit [Scalar α] in
/-- Whatever is passed on a way is reached by a shorter one. -/
theorem of_mem (way : tree.WayTo above handle) (passed : ancestor ∈ above) :
    ∃ shorter, tree.WayTo shorter ancestor ∧ shorter.length < above.length := by
  induction way with
  | root isRoot => simp at passed
  | child way fills ih =>
      rcases List.mem_cons.mp passed with rfl | passed
      · exact ⟨_, way, by simp⟩
      · obtain ⟨shorter, found, isShorter⟩ := ih passed
        exact ⟨shorter, found, isShorter.trans (by simp)⟩

omit [Scalar α] in
/-- Every way that passes a node begins at the root. -/
theorem root_mem {root : Handle} (isRoot : tree.root = some root)
    (way : tree.WayTo above handle) (passes : above ≠ []) : root ∈ above := by
  induction way with
  | root => exact absurd rfl passes
  | child way fills ih =>
      cases way with
      | root isParent =>
          obtain rfl := Option.some.inj (isRoot.symm.trans isParent)
          exact List.mem_cons_self
      | child => exact List.mem_cons_of_mem _ (ih (by simp))

omit [Scalar α] in
/-- Where no node is shared, there is one way to each. -/
theorem unique (unshared : tree.Unshared)
    (way : tree.WayTo above handle) (otherWay : tree.WayTo other handle) :
    above = other := by
  induction way generalizing other with
  | root isRoot =>
      cases otherWay with
      | root => rfl
      | child otherWay fills =>
          exact absurd fills (unshared.rootFree _ _ isRoot ⟨_, otherWay⟩)
  | @child above place child way fills ih =>
      cases otherWay with
      | root isRoot =>
          exact absurd fills (unshared.rootFree _ _ isRoot ⟨_, way⟩)
      | @child others otherPlace _ otherWay otherFills =>
          have notRoot : tree.root ≠ some child := fun isRoot =>
            unshared.rootFree _ _ isRoot ⟨_, way⟩ fills
          have same : place = otherPlace :=
            (unshared.heldOnce child ⟨_, way.child fills⟩ notRoot).unique
              ⟨⟨_, way⟩, fills⟩ ⟨⟨_, otherWay⟩, otherFills⟩
          subst same
          rw [ih otherWay]

end WayTo

variable {tree : Tree α} {limit : Nat} {above : List Handle} {handle : Handle}
  {node : Node α}

omit [Scalar α] in
theorem children_of_node (isNode : tree.node? handle = some node) :
    tree.children handle = node.construct.children := by
  rw [Tree.children, isNode]

omit [Scalar α] in
theorem fills_of_slot (isNode : tree.node? handle = some node) {slot : Slot}
    (slotIn : slot ∈ node.construct.slots) {child : Handle}
    (holds : slot.child = some child) : tree.Fills (handle, slot.name) child := by
  refine List.mem_map.mpr ⟨(slot.name, child), ?_, rfl⟩
  rw [children_of_node isNode]
  exact List.mem_filterMap.mpr ⟨slot, slotIn, by rw [holds]; rfl⟩

/-- What a node is that has no defect of its own. -/
structure IsSound (tree : Tree α) (limit : Nat) (node : Node α)
    (above : List Handle) : Prop where
  modest : ∀ hint, node.hint = some hint → hint.IsModest
  shallow : above.length ≤ limit
  placed : node.tag.isDeclaration = true → tree.MayDeclare above
  armed : node.construct ≠ .selection []

theorem isSound_of_defectOf (noDefect : tree.defectOf? limit node above = none) :
    tree.IsSound limit node above := by
  unfold defectOf? at noDefect
  split at noDefect
  · cases noDefect
  · rename_i modest
    split at noDefect
    · cases noDefect
    · rename_i shallow
      split at noDefect
      · cases noDefect
      · rename_i placed
        split at noDefect
        · cases noDefect
        · rename_i armed
          refine ⟨Label.hasValidHint_iff.mp (by simpa using modest),
            Nat.le_of_not_lt shallow, fun declared => ?_, armed⟩
          rw [← mayHoldDeclaration_iff]
          simpa [declared] using placed

theorem hasDefect_of_defectOf {defect : Defect}
    (found : tree.defectOf? limit node above = some defect)
    (way : tree.WayTo above handle) (isNode : tree.node? handle = some node) :
    tree.HasDefect limit defect := by
  have hasNode : tree.HasNode handle node := ⟨⟨above, way⟩, isNode⟩
  unfold defectOf? at found
  split at found
  · rename_i immodest
    obtain rfl := Option.some.inj found
    have invalid : ¬ node.hasValidHint = true := by simpa using immodest
    rw [Label.hasValidHint_iff] at invalid
    push Not at invalid
    obtain ⟨hint, hinted, tooLarge⟩ := invalid
    exact ⟨handle, node, hint, hasNode, rfl, hinted, tooLarge⟩
  · split at found
    · obtain rfl := Option.some.inj found
      exact ⟨rfl, handle, node, above, way, isNode, rfl, ‹_›⟩
    · split at found
      · rename_i misplaced
        obtain rfl := Option.some.inj found
        obtain ⟨declared, notHeld⟩ : node.tag.isDeclaration = true ∧
            tree.mayHoldDeclaration above = false := by simpa using misplaced
        refine ⟨handle, node, above, way, isNode, rfl, rfl, declared, ?_⟩
        rw [← mayHoldDeclaration_iff, notHeld]
        simp
      · split at found
        · rename_i noArms
          obtain rfl := Option.some.inj found
          exact ⟨handle, node, hasNode, rfl, noArms⟩
        · cases found

theorem hasDefect_of_slotsDefect {defect : Defect}
    (found : tree.slotsDefect? node = some defect)
    (hasNode : tree.HasNode handle node) : tree.HasDefect limit defect := by
  obtain ⟨slot, slotIn, found⟩ := List.exists_of_findSome?_eq_some found
  rw [List.mem_reverse] at slotIn
  unfold slotDefect? at found
  split at found
  · rename_i child holds
    split at found
    · rename_i dangling
      obtain rfl := Option.some.inj found
      exact ⟨handle, node, hasNode, rfl, fills_of_slot hasNode.2 slotIn holds,
        Option.isNone_iff_eq_none.mp dangling⟩
    · cases found
  · rename_i empty
    split at found
    · obtain rfl := Option.some.inj found
      exact ⟨handle, node, slot, hasNode, rfl, rfl, slotIn, rfl, ‹_›, empty⟩
    · cases found

omit [Scalar α] in
/-- What a node without such a defect lists as its children, it holds. -/
theorem fills_of_child (isNode : tree.node? handle = some node)
    (noSlotDefect : tree.slotsDefect? node = none) {name : SlotName}
    {child : Handle} (childIn : (name, child) ∈ node.construct.children) :
    tree.Fills (handle, name) child ∧ ∃ found, tree.node? child = some found := by
  obtain ⟨slot, slotIn, holds⟩ := List.mem_filterMap.mp childIn
  obtain ⟨found, isFilled, same⟩ := Option.map_eq_some_iff.mp holds
  obtain ⟨rfl, rfl⟩ := Prod.mk.inj same
  refine ⟨fills_of_slot isNode slotIn isFilled, ?_⟩
  have sound := List.findSome?_eq_none_iff.mp noSlotDefect slot
    (List.mem_reverse.mpr slotIn)
  simp only [slotDefect?, isFilled] at sound
  exact Option.ne_none_iff_exists'.mp (by simpa using sound)

/-! ## The run of the check -/

namespace Step

def left? : Step → Option Handle
  | .enter _ _ => none
  | .leave handle => some handle

/-- What is to be entered lies below what is to be left afterwards. -/
inductive Nested : List Step → Prop where
  | nil : Nested []
  | leave {handle : Handle} {rest : List Step} : Nested rest →
      Nested (.leave handle :: rest)
  | enter (handle : Handle) {rest : List Step} : Nested rest →
      Nested (.enter handle (rest.filterMap left?) :: rest)

theorem Nested.children {rest : List Step} (nested : Nested rest)
    (children : List (SlotName × Handle)) :
    Nested ((children.map fun child =>
      Step.enter child.2 (rest.filterMap left?)) ++ rest) := by
  induction children with
  | nil => exact nested
  | cons child others ih =>
      have sameLeft : (((others.map fun child =>
          Step.enter child.2 (rest.filterMap left?)) ++ rest).filterMap left?) =
            rest.filterMap left? := by
        simp [List.filterMap_append, List.filterMap_map, Function.comp_def, left?]
      have next := Nested.enter child.2 ih
      rwa [sameLeft] at next

end Step

/-- What holds of a check at every step.  `entered` are the nodes entered so
far, the latest first. -/
structure Checks (tree : Tree α) (limit : Nat) (root : Handle)
    (entered unseen path : List Handle) (ids : List NodeId) (steps : List Step) :
    Prop where
  enteredNodup : entered.Nodup
  unseenNodup : unseen.Nodup
  mem_unseen : ∀ handle, handle ∈ unseen ↔
    (∃ node, tree.node? handle = some node) ∧ handle ∉ entered
  ids_eq : ids.map some =
    entered.map fun handle => (tree.node? handle).map fun node => node.id
  idsNodup : ids.Nodup
  sound : ∀ handle ∈ entered, ∃ above node, tree.WayTo above handle ∧
    tree.node? handle = some node ∧ tree.IsSound limit node above ∧
    tree.slotsDefect? node = none
  pending : ∀ entry ∈ steps.filterMap Step.entered?,
    tree.WayTo entry.2 entry.1 ∧ ∃ node, tree.node? entry.1 = some node
  nested : Step.Nested steps
  path_eq : path = steps.filterMap Step.left?
  held : ((steps.filterMap Step.entered?).map Prod.fst ++ entered).Perm
    (root :: (entered.flatMap tree.filled).map Prod.snd)
  rootFirst : ∀ handle, (handle, []) ∈ steps.filterMap Step.entered? →
    entered = []

namespace Checks

variable {root : Handle} {entered unseen path : List Handle}
  {ids : List NodeId} {ancestors : List Handle} {rest steps : List Step}

theorem begins (isRoot : tree.root = some root)
    (isNode : tree.node? root = some node) :
    tree.Checks limit root [] (List.range tree.size) [] []
      [.enter root []] where
  enteredNodup := List.nodup_nil
  unseenNodup := List.nodup_range
  mem_unseen := by
    intro handle
    simp [Tree.node?, Tree.size, List.mem_range, ← Option.isSome_iff_exists]
  ids_eq := rfl
  idsNodup := List.nodup_nil
  sound := by simp
  pending := by
    intro entry entryIn
    obtain rfl : entry = (root, []) := by simpa [Step.entered?] using entryIn
    exact ⟨.root isRoot, node, isNode⟩
  nested := .enter root .nil
  path_eq := rfl
  held := .refl _
  rootFirst := by simp

theorem leave (checks : tree.Checks limit root entered unseen path ids
      (.leave handle :: rest)) :
    tree.Checks limit root entered unseen (path.erase handle) ids rest := by
  have pathEq : path.erase handle = rest.filterMap Step.left? := by
    rw [checks.path_eq]
    exact List.erase_cons_head handle _
  have nested : Step.Nested rest := by
    cases checks.nested
    assumption
  exact { checks with path_eq := pathEq, nested }

theorem path_eq_ancestors (checks : tree.Checks limit root entered unseen path
      ids (.enter handle ancestors :: rest)) :
    path = ancestors ∧ ancestors = rest.filterMap Step.left? := by
  have pathEq := checks.path_eq
  rw [List.filterMap_cons_none rfl] at pathEq
  cases checks.nested
  exact ⟨pathEq, rfl⟩

theorem wayTo (checks : tree.Checks limit root entered unseen path
      ids (.enter handle ancestors :: rest)) : tree.WayTo ancestors handle :=
  (checks.pending (handle, ancestors) (by simp [Step.entered?])).1

/-- Before the root is entered, nothing else is to be entered. -/
theorem root_not_later (checks : tree.Checks limit root entered unseen path ids
      (.enter handle ancestors :: rest)) (other : Handle) :
    (other, []) ∉ rest.filterMap Step.entered? := by
  intro isLater
  have nothingBefore := checks.rootFirst other (List.mem_cons_of_mem _ isLater)
  have counted := checks.held.length_eq
  rw [nothingBefore] at counted
  have noneLater : rest.filterMap Step.entered? = [] := by
    simpa [Step.entered?] using counted
  rw [noneLater] at isLater
  cases isLater

theorem enter (checks : tree.Checks limit root entered unseen path ids
      (.enter handle ancestors :: rest))
    (isNode : tree.node? handle = some node) (isUnseen : handle ∈ unseen)
    (isNew : node.id ∉ ids)
    (noDefect : tree.defectOf? limit node ancestors = none)
    (noSlotDefect : tree.slotsDefect? node = none) :
    tree.Checks limit root (handle :: entered) (unseen.erase handle)
      (handle :: path) (node.id :: ids)
      ((node.construct.children.map fun child =>
        Step.enter child.2 (handle :: ancestors)) ++ .leave handle :: rest) := by
  obtain ⟨pathEq, ancestorsEq⟩ := checks.path_eq_ancestors
  have notEntered := ((checks.mem_unseen handle).mp isUnseen).2
  have filledEq : (tree.filled handle).map Prod.snd =
      node.construct.children.map Prod.snd := by
    rw [filled, children_of_node isNode, List.map_map]
    rfl
  have leftEq : (Step.leave handle :: rest).filterMap Step.left? =
      handle :: ancestors := by
    rw [ancestorsEq]
    rfl
  exact {
    enteredNodup := List.nodup_cons.mpr ⟨notEntered, checks.enteredNodup⟩
    unseenNodup := checks.unseenNodup.erase handle
    mem_unseen := by
      intro other
      rw [checks.unseenNodup.mem_erase_iff, checks.mem_unseen, List.mem_cons,
        not_or]
      tauto
    ids_eq := by
      rw [List.map_cons, List.map_cons, checks.ids_eq, isNode]
      rfl
    idsNodup := List.nodup_cons.mpr ⟨isNew, checks.idsNodup⟩
    sound := by
      intro other otherIn
      rcases List.mem_cons.mp otherIn with rfl | isEarlier
      · exact ⟨ancestors, node, checks.wayTo, isNode,
          isSound_of_defectOf noDefect, noSlotDefect⟩
      · exact checks.sound other isEarlier
    pending := by
      rw [Step.entered_below]
      intro entry entryIn
      rcases List.mem_append.mp entryIn with isChild | isLater
      · obtain ⟨⟨name, child⟩, childIn, rfl⟩ := List.mem_map.mp isChild
        obtain ⟨fills, stored⟩ := fills_of_child isNode noSlotDefect childIn
        exact ⟨checks.wayTo.child fills, stored⟩
      · exact checks.pending entry (List.mem_cons_of_mem _ isLater)
    nested := by
      have below : Step.Nested (.leave handle :: rest) := by
        cases checks.nested
        exact .leave ‹_›
      have nested := below.children node.construct.children
      rwa [leftEq] at nested
    path_eq := by
      rw [List.filterMap_append, leftEq, List.filterMap_map, pathEq]
      simp [Function.comp_def, Step.left?]
    held := by
      have before : (handle :: ((rest.filterMap Step.entered?).map Prod.fst ++
          entered)).Perm (root :: (entered.flatMap tree.filled).map Prod.snd) :=
        checks.held
      rw [Step.entered_below, List.map_append, List.map_map, List.append_assoc,
        List.flatMap_cons, List.map_append, filledEq]
      exact ((List.perm_middle.trans before).append_left _).trans
        List.perm_middle
    rootFirst := by
      rw [Step.entered_below]
      intro other otherIn
      rcases List.mem_append.mp otherIn with isChild | isLater
      · obtain ⟨child, -, same⟩ := List.mem_map.mp isChild
        cases same
      · exact absurd isLater (checks.root_not_later other) }

section

variable (checks : tree.Checks limit root entered unseen path ids [])
  (isRoot : tree.root = some root)

include checks isRoot

/-- At the end all nodes have been entered. -/
theorem mem_entered (way : tree.WayTo above handle) : handle ∈ entered := by
  have held : entered.Perm
      (root :: (entered.flatMap tree.filled).map Prod.snd) := checks.held
  induction way with
  | root isRoot' =>
      obtain rfl := Option.some.inj (isRoot.symm.trans isRoot')
      exact held.mem_iff.mpr List.mem_cons_self
  | child way fills ih =>
      refine held.mem_iff.mpr (List.mem_cons_of_mem _ ?_)
      exact List.mem_map.mpr ⟨_, List.mem_flatMap.mpr ⟨_, ih, fills⟩, rfl⟩

theorem mem_flatMap_filled {place : Place} (reaches : tree.Reaches place.1)
    (fills : tree.Fills place handle) :
    (place, handle) ∈ entered.flatMap tree.filled :=
  have ⟨_, way⟩ := reaches
  List.mem_flatMap.mpr ⟨place.1, checks.mem_entered isRoot way, fills⟩

/-- Each node has been entered once, so that each is held once. -/
theorem unshared : tree.Unshared := by
  have held : entered.Perm
      (root :: (entered.flatMap tree.filled).map Prod.snd) := checks.held
  obtain ⟨rootNotHeld, heldNodup⟩ :=
    List.nodup_cons.mp (held.nodup_iff.mp checks.enteredNodup)
  constructor
  case heldOnce =>
    rintro handle ⟨above, way⟩ notRoot
    cases way with
    | root isRoot' => exact absurd isRoot' notRoot
    | @child above place _ way fills =>
        refine ⟨place, ⟨⟨above, way⟩, fills⟩, ?_⟩
        rintro other ⟨otherReaches, otherFills⟩
        have same := List.inj_on_of_nodup_map heldNodup
          (checks.mem_flatMap_filled isRoot otherReaches otherFills)
          (checks.mem_flatMap_filled isRoot ⟨above, way⟩ fills) rfl
        exact congrArg Prod.fst same
  case rootFree =>
    intro other place isOther reaches fills
    obtain rfl := Option.some.inj (isRoot.symm.trans isOther)
    exact rootNotHeld
      (List.mem_map_of_mem (checks.mem_flatMap_filled isRoot reaches fills))

/-- What was found when a node was entered, on the only way to it. -/
theorem isSound (way : tree.WayTo above handle)
    (isNode : tree.node? handle = some node) :
    tree.IsSound limit node above ∧ tree.slotsDefect? node = none := by
  obtain ⟨found, other, foundWay, isOther, isSound, noSlotDefect⟩ :=
    checks.sound handle (checks.mem_entered isRoot way)
  obtain rfl := Option.some.inj (isNode.symm.trans isOther)
  rw [way.unique (checks.unshared isRoot) foundWay]
  exact ⟨isSound, noSlotDefect⟩

/-- What was found of each node makes the tree well formed. -/
theorem formed (rootNode : tree.node? root = some node) :
    tree.WellFormed limit where
  toUnshared := checks.unshared isRoot
  rooted := ⟨root, node, isRoot, rootNode⟩
  stored := by
    rintro place child ⟨above, way⟩ fills
    obtain ⟨-, found, -, isNode, -⟩ :=
      checks.sound child (checks.mem_entered isRoot (way.child fills))
    exact ⟨found, isNode⟩
  identified := by
    rintro handle other node otherNode ⟨⟨above, way⟩, isNode⟩
      ⟨⟨otherAbove, otherWay⟩, isOther⟩ same
    have idsNodup : (ids.map some).Nodup :=
      checks.idsNodup.map (Option.some_injective _)
    rw [checks.ids_eq] at idsNodup
    refine List.inj_on_of_nodup_map idsNodup (checks.mem_entered isRoot way)
      (checks.mem_entered isRoot otherWay) ?_
    rw [isNode, isOther, Option.map_some, Option.map_some, same]
  modest := by
    rintro handle node hint ⟨⟨above, way⟩, isNode⟩
    exact (checks.isSound isRoot way isNode).1.modest hint
  complete := by
    rintro handle node slot ⟨⟨above, way⟩, isNode⟩ slotIn required empty
    obtain ⟨child, holds⟩ := filled_of_slotsDefect
      (checks.isSound isRoot way isNode).2 slotIn required
    rw [empty] at holds
    cases holds
  armed := by
    rintro handle node ⟨⟨above, way⟩, isNode⟩
    exact (checks.isSound isRoot way isNode).1.armed
  placed := fun above handle node way isNode =>
    (checks.isSound isRoot way isNode).1.placed
  shallow := by
    intro above handle way
    obtain ⟨-, node, -, isNode, -⟩ :=
      checks.sound handle (checks.mem_entered isRoot way)
    exact (checks.isSound isRoot way isNode).1.shallow

end

/-- The node to be entered next lies below itself. -/
theorem cycle (checks : tree.Checks limit root entered unseen path ids
      (.enter handle ancestors :: rest))
    (isNode : tree.node? handle = some node) (onPath : handle ∈ path) :
    tree.HasDefect limit (.cycle node.id) := by
  rw [checks.path_eq_ancestors.1] at onPath
  exact ⟨handle, node, ancestors, isNode, rfl, checks.wayTo, onPath⟩

theorem reaches (checks : tree.Checks limit root entered unseen path ids steps)
    (isEntered : handle ∈ entered) : tree.Reaches handle := by
  obtain ⟨above, -, way, -⟩ := checks.sound handle isEntered
  exact ⟨above, way⟩

/-- The node to be entered next has the identity of another one. -/
theorem duplicate (checks : tree.Checks limit root entered unseen path ids
      (.enter handle ancestors :: rest))
    (isNode : tree.node? handle = some node) (isUnseen : handle ∈ unseen)
    (known : node.id ∈ ids) :
    tree.HasDefect limit (.duplicateId node.id) := by
  have isKnown : some node.id ∈ ids.map some := List.mem_map_of_mem known
  rw [checks.ids_eq] at isKnown
  obtain ⟨other, isEntered, same⟩ := List.mem_map.mp isKnown
  obtain ⟨otherNode, isOther, sameId⟩ := Option.map_eq_some_iff.mp same
  refine ⟨handle, other, node, otherNode, ?_, ⟨⟨_, checks.wayTo⟩, isNode⟩,
    ⟨checks.reaches isEntered, isOther⟩, rfl, sameId⟩
  rintro rfl
  exact ((checks.mem_unseen _).mp isUnseen).2 isEntered

/-- The node to be entered next has been entered before, through another
place. -/
theorem shared (checks : tree.Checks limit root entered unseen path ids
      (.enter handle ancestors :: rest)) (isRoot : tree.root = some root)
    (isNode : tree.node? handle = some node) (offPath : handle ∉ path)
    (isSeen : handle ∉ unseen) :
    tree.HasDefect limit (.sharedNode node.id) := by
  have isEntered : handle ∈ entered := by
    by_contra notEntered
    exact isSeen ((checks.mem_unseen handle).mpr ⟨⟨node, isNode⟩, notEntered⟩)
  have notRoot : root ≠ handle := by
    rintro rfl
    have onPath := checks.wayTo.root_mem isRoot
    rw [checks.path_eq_ancestors.1] at offPath
    by_cases isFirst : ancestors = []
    · have nothingBefore := checks.rootFirst root
        (by simp [Step.entered?, isFirst])
      rw [nothingBefore] at isEntered
      cases isEntered
    · exact offPath (onPath isFirst)
  have twice : 2 ≤ ((entered.flatMap tree.filled).map Prod.snd).count handle := by
    have counted := checks.held.count_eq handle
    rw [List.count_cons_of_ne notRoot] at counted
    have inEntered := List.count_pos_iff.mpr isEntered
    simp [Step.entered?] at counted
    omega
  obtain ⟨first, second, different, firstIn, secondIn⟩ :=
    exists_two_keys (tree.places_nodup checks.enteredNodup) twice
  have holds : ∀ place, (place, handle) ∈ entered.flatMap tree.filled →
      tree.Reaches place.1 ∧ tree.Fills place handle := by
    intro place placeIn
    obtain ⟨holder, holderIn, fills⟩ := List.mem_flatMap.mp placeIn
    obtain ⟨rfl, fills⟩ := mem_filled.mp fills
    exact ⟨checks.reaches holderIn, fills⟩
  refine ⟨handle, node, ancestors, ⟨⟨_, checks.wayTo⟩, isNode⟩, rfl,
    checks.wayTo, ?_, first, second, different, holds first firstIn,
    holds second secondIn⟩
  rwa [← checks.path_eq_ancestors.1]

end Checks

/-- What a finished check has found. -/
theorem check_decides {root : Handle} {unseen path : List Handle}
    {ids : List NodeId} {steps : List Step} (isRoot : tree.root = some root)
    (rootNode : tree.node? root = some node)
    (checks : ∃ entered,
      tree.Checks limit root entered unseen path ids steps) :
    match tree.check limit unseen path ids steps with
    | .ok () => tree.WellFormed limit
    | .error defect => tree.HasDefect limit defect := by
  fun_induction check tree limit unseen path ids steps with
  | case1 unseen path ids =>
      obtain ⟨entered, checks⟩ := checks
      exact checks.formed isRoot rootNode
  | case2 unseen path ids handle rest ih =>
      obtain ⟨entered, checks⟩ := checks
      exact ih ⟨entered, checks.leave⟩
  | case3 unseen path ids handle ancestors rest missing =>
      obtain ⟨entered, checks⟩ := checks
      obtain ⟨-, found, isStored⟩ :=
        checks.pending (handle, ancestors) (by simp [Step.entered?])
      rw [missing] at isStored
      cases isStored
  | case4 unseen path ids handle ancestors rest node isNode onPath =>
      obtain ⟨entered, checks⟩ := checks
      exact checks.cycle isNode onPath
  | case5 unseen path ids handle ancestors rest node isNode _ isUnseen known =>
      obtain ⟨entered, checks⟩ := checks
      exact checks.duplicate isNode isUnseen known
  | case6 unseen path ids handle ancestors rest node isNode _ _ _ defect found =>
      obtain ⟨entered, checks⟩ := checks
      exact hasDefect_of_defectOf found checks.wayTo isNode
  | case7 unseen path ids handle ancestors rest node isNode _ _ _ _ defect
      found =>
      obtain ⟨entered, checks⟩ := checks
      exact hasDefect_of_slotsDefect found ⟨⟨_, checks.wayTo⟩, isNode⟩
  | case8 unseen path ids handle ancestors rest node isNode _ isUnseen isNew
      sound filled below ih =>
      obtain ⟨entered, checks⟩ := checks
      exact ih ⟨_, checks.enter isNode isUnseen isNew sound filled⟩
  | case9 unseen path ids handle ancestors rest node isNode offPath isSeen =>
      obtain ⟨entered, checks⟩ := checks
      exact checks.shared isRoot isNode offPath isSeen

end Tree

end Flowchart
