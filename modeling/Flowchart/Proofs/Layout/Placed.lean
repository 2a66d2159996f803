import Flowchart.Layout.Engine
import Flowchart.Proofs.Keyed
import Flowchart.Proofs.Layout.Measure

/-!
# Arrangements in the plane

The nodes of a diagram are those of the arrangement it is made from: each stands
for one node, knows the parent of this node, and comes after it.
-/

namespace Flowchart.Arrangement

variable {α : Type} [Scalar α]

theorem placeArms_eq (origin : Point α) (frame : Frame α) (depth index : Nat)
    (arms : List (String × Arrangement α)) :
    placeArms origin frame depth index arms =
      placeMembers origin frame depth index (arms.map Prod.snd) := by
  induction arms generalizing index with
  | nil => rfl
  | cons arm rest ih => simp [placeArms, placeMembers, ih]

/-- A node comes first, and its children follow in order. -/
theorem place_eq (origin : Point α) (parent : Option NodeId) (depth : Nat)
    (arrangement : Arrangement α) :
    place origin parent depth arrangement =
      nodeAt origin parent depth arrangement.tag arrangement.label ::
        placeMembers origin arrangement.label (depth + 1) 0
          arrangement.children := by
  cases arrangement with
  | decision frame consequent alternative =>
      cases alternative <;>
        simp [place, placeMembers, Program.children, Program.tag, Program.label]
  | selection frame arms =>
      simp [place, placeArms_eq, Program.children, Program.tag, Program.label]
  | _ => simp [place, placeMembers, Program.children, Program.tag, Program.label]

theorem mem_placeMembers {origin : Point α} {frame : Frame α}
    {depth index : Nat} {members : List (Arrangement α)} {node : DiagramNode α} :
    node ∈ placeMembers origin frame depth index members ↔
      ∃ position member, members[position]? = some member ∧
        node ∈ place (childOrigin origin frame (index + position))
          (some frame.id) depth member := by
  induction members generalizing index with
  | nil => simp [placeMembers]
  | cons first rest ih =>
      rw [placeMembers, List.mem_append, ih]
      constructor
      · rintro (inFirst | ⟨position, member, isMember, inMember⟩)
        · exact ⟨0, first, rfl, inFirst⟩
        · exact ⟨position + 1, member, isMember, by
            rwa [Nat.add_assoc, Nat.add_comm 1] at inMember⟩
      · rintro ⟨position, member, isMember, inMember⟩
        cases position with
        | zero =>
            obtain rfl : first = member := by simpa using isMember
            exact .inl inMember
        | succ position =>
            refine .inr ⟨position, member, isMember, ?_⟩
            rwa [Nat.add_assoc, Nat.add_comm 1]

/-- The identity of the parent of a node below the given ones. -/
def parentBelow (outer : Option NodeId) :
    List (Arrangement α) → Option NodeId
  | [] => outer
  | parent :: _ => some parent.label.id

omit [Scalar α] in
theorem parentBelow_append (outer : Option NodeId)
    (above : List (Arrangement α)) (root : Arrangement α) :
    parentBelow outer (above ++ [root]) =
      parentBelow (some root.label.id) above := by
  cases above <;> rfl

/-- A node of the diagram shows one node of the arrangement. -/
theorem of_mem_place {origin : Point α} {parent : Option NodeId} {depth : Nat}
    {arrangement : Arrangement α} {node : DiagramNode α}
    (placed : node ∈ place origin parent depth arrangement) :
    ∃ above shown corner, arrangement.Stands above shown ∧
      node = nodeAt corner (parentBelow parent above) (depth + above.length)
        shown.tag shown.label := by
  induction arrangement using Program.childrenInduction
    generalizing origin parent depth with
  | step arrangement ih =>
    rw [place_eq, List.mem_cons, mem_placeMembers] at placed
    rcases placed with rfl | ⟨position, child, isChild, inChild⟩
    · exact ⟨[], arrangement, origin, .root, rfl⟩
    · have childIn := List.mem_of_getElem? isChild
      obtain ⟨above, shown, corner, stands, rfl⟩ := ih child childIn inChild
      refine ⟨above ++ [arrangement], shown, corner, stands.inside childIn, ?_⟩
      rw [parentBelow_append, List.length_append, List.length_singleton,
        Nat.add_right_comm, Nat.add_assoc]

/-- Every node of the arrangement is shown. -/
theorem exists_mem_place {arrangement : Arrangement α}
    {above : List (Arrangement α)} {shown : Arrangement α}
    (stands : arrangement.Stands above shown) (origin : Point α)
    (parent : Option NodeId) (depth : Nat) :
    ∃ corner, nodeAt corner (parentBelow parent above) (depth + above.length)
      shown.tag shown.label ∈ place origin parent depth arrangement := by
  induction arrangement using Program.childrenInduction
    generalizing origin parent depth above with
  | step arrangement ih =>
    rw [place_eq]
    rcases stands.cases_root with
      ⟨rfl, rfl⟩ | ⟨child, childIn, between, rfl, inChild⟩
    · exact ⟨origin, List.mem_cons_self⟩
    · obtain ⟨position, isChild⟩ := List.getElem?_of_mem childIn
      obtain ⟨corner, placed⟩ := ih child childIn inChild
        (childOrigin origin arrangement.label (0 + position))
        (some arrangement.label.id) (depth + 1)
      refine ⟨corner, List.mem_cons_of_mem _ (mem_placeMembers.mpr
        ⟨position, child, isChild, ?_⟩)⟩
      rwa [parentBelow_append, List.length_append, List.length_singleton,
        ← Nat.add_assoc, Nat.add_right_comm]

theorem ids_placeMembers {origin : Point α} {frame : Frame α}
    {depth index : Nat} {members : List (Arrangement α)}
    (each : ∀ member ∈ members, ∀ origin parent depth,
      (place origin parent depth member).map DiagramNode.id =
        member.labels.map Frame.id) :
    (placeMembers origin frame depth index members).map DiagramNode.id =
      (members.flatMap Program.labels).map Frame.id := by
  induction members generalizing index with
  | nil => rfl
  | cons member rest ih =>
      rw [placeMembers, List.map_append, each member List.mem_cons_self,
        ih fun other otherIn => each other (List.mem_cons_of_mem _ otherIn)]
      simp

theorem ids_place (origin : Point α) (parent : Option NodeId) (depth : Nat)
    (arrangement : Arrangement α) :
    (place origin parent depth arrangement).map DiagramNode.id =
      arrangement.labels.map Frame.id := by
  induction arrangement using Program.childrenInduction
    generalizing origin parent depth with
  | step arrangement ih =>
    rw [place_eq, Program.labels_eq, List.map_cons, List.map_cons,
      ids_placeMembers fun child childIn => ih child childIn]
    rfl

/-! ## Siblings that overlap -/

theorem armsOverlap?_eq (origin : Point α) (frame : Frame α) (index : Nat)
    (arms : List (String × Arrangement α)) :
    armsOverlap? origin frame index arms =
      membersOverlap? origin frame index (arms.map Prod.snd) := by
  induction arms generalizing index with
  | nil => rfl
  | cons arm rest ih => simp [armsOverlap?, membersOverlap?, ih]

/-- The children of a node are looked at before what is below them. -/
theorem overlap?_eq (origin : Point α) (arrangement : Arrangement α) :
    overlap? origin arrangement =
      (firstOverlap?
          (childBounds origin arrangement.label arrangement.children)).or
        (membersOverlap? origin arrangement.label 0 arrangement.children) := by
  cases arrangement with
  | decision frame consequent alternative =>
      cases alternative <;>
        simp [overlap?, membersOverlap?, childBounds, firstOverlap?,
          Program.children, Program.label]
  | selection frame arms =>
      simp [overlap?, armsOverlap?_eq, Program.children, Program.label]
  | _ =>
      simp [overlap?, membersOverlap?, childBounds, firstOverlap?,
        Program.children, Program.label]

/-! ## Parents come first -/

/-- Every parent that a node names is known or comes before it. -/
def ParentsFirst (known : List NodeId) : List (DiagramNode α) → Prop
  | [] => True
  | node :: rest =>
      (∀ parent, node.parent = some parent → parent ∈ known) ∧
        ParentsFirst (node.id :: known) rest

omit [Scalar α] in
theorem ParentsFirst.mono {known more : List NodeId}
    {nodes : List (DiagramNode α)} (first : ParentsFirst known nodes)
    (subset : known ⊆ more) : ParentsFirst more nodes := by
  induction nodes generalizing known more with
  | nil => trivial
  | cons node rest ih =>
      exact ⟨fun parent isParent => subset (first.1 parent isParent),
        ih first.2 (List.cons_subset_cons _ subset)⟩

omit [Scalar α] in
theorem ParentsFirst.append {known : List NodeId}
    {nodes others : List (DiagramNode α)} (first : ParentsFirst known nodes)
    (second : ParentsFirst known others) :
    ParentsFirst known (nodes ++ others) := by
  induction nodes generalizing known with
  | nil => exact second
  | cons node rest ih =>
      exact ⟨first.1, ih first.2 (second.mono (List.subset_cons_self _ _))⟩

omit [Scalar α] in
/-- Nodes up to some point name no parent that comes later. -/
theorem ParentsFirst.parent_mem {known : List NodeId}
    {before after : List (DiagramNode α)} {node : DiagramNode α}
    (first : ParentsFirst known (before ++ node :: after))
    {other : DiagramNode α} (otherIn : other ∈ before ++ [node])
    {parent : NodeId} (isParent : other.parent = some parent) :
    parent ∈ known ∨ parent ∈ before.map DiagramNode.id := by
  induction before generalizing known with
  | nil =>
      rw [List.nil_append, List.mem_singleton] at otherIn
      exact .inl (first.1 parent (otherIn ▸ isParent))
  | cons head rest ih =>
      rcases List.mem_cons.mp otherIn with rfl | inRest
      · exact .inl (first.1 parent isParent)
      · rcases ih first.2 inRest with isKnown | inBefore
        · rcases List.mem_cons.mp isKnown with rfl | isKnown
          · exact .inr (List.mem_map_of_mem List.mem_cons_self)
          · exact .inl isKnown
        · exact .inr (List.mem_cons_of_mem _ inBefore)

theorem parentsFirst_place {origin : Point α} {parent : Option NodeId}
    {depth : Nat} {arrangement : Arrangement α} {known : List NodeId}
    (isKnown : ∀ id, parent = some id → id ∈ known) :
    ParentsFirst known (place origin parent depth arrangement) := by
  induction arrangement using Program.childrenInduction
    generalizing origin parent depth known with
  | step arrangement ih =>
    rw [place_eq]
    refine ⟨isKnown, ?_⟩
    have members : ∀ (children : List (Arrangement α)) (index : Nat),
        (∀ child ∈ children, child ∈ arrangement.children) →
        ParentsFirst (arrangement.label.id :: known)
          (placeMembers origin arrangement.label (depth + 1) index children) := by
      intro children
      induction children with
      | nil => exact fun _ _ => trivial
      | cons child rest childrenFirst =>
          intro index inside
          rw [placeMembers]
          refine (ih child (inside child List.mem_cons_self) ?_).append
            (childrenFirst (index + 1) fun other otherIn =>
              inside other (List.mem_cons_of_mem _ otherIn))
          simp
    exact members arrangement.children 0 fun _ childIn => childIn

end Flowchart.Arrangement
