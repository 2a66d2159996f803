import Flowchart.Proofs.Flow.Reachable
import Flowchart.Proofs.Layout.Spacing
import Flowchart.Proofs.Route.Inside

/-!
# Distances in a diagram

In exact arithmetic nodes that are not inside one another keep a distance, and
so do the figure of a node and all that stands below it.
-/

namespace Flowchart

open Scalar

/-! ## Nodes in the plane -/

namespace Diagram

variable {α : Type}

/-- A node of a list stands below another one, directly or further down. -/
inductive Below (nodes : List (DiagramNode α)) :
    DiagramNode α → DiagramNode α → Prop where
  | child {upper lower : DiagramNode α} : upper ∈ nodes → lower ∈ nodes →
      lower.parent = some upper.id → Below nodes upper lower
  | further {upper middle lower : DiagramNode α} : Below nodes upper middle →
      lower ∈ nodes → lower.parent = some middle.id → Below nodes upper lower

theorem Below.mono {nodes others : List (DiagramNode α)}
    {upper lower : DiagramNode α} (below : Below nodes upper lower)
    (subset : nodes ⊆ others) : Below others upper lower := by
  induction below with
  | child upperIn lowerIn isParent =>
      exact .child (subset upperIn) (subset lowerIn) isParent
  | further _ lowerIn isParent ih => exact .further ih (subset lowerIn) isParent

theorem Below.lower_mem {nodes : List (DiagramNode α)}
    {upper lower : DiagramNode α} (below : Below nodes upper lower) :
    lower ∈ nodes := by
  cases below with
  | child _ lowerIn _ => exact lowerIn
  | further _ lowerIn _ => exact lowerIn

theorem Below.trans {nodes : List (DiagramNode α)}
    {upper middle lower : DiagramNode α} (first : Below nodes upper middle)
    (second : Below nodes middle lower) : Below nodes upper lower := by
  induction second with
  | child _ lowerIn isParent => exact .further first lowerIn isParent
  | further _ lowerIn isParent ih => exact .further ih lowerIn isParent

end Diagram

open Diagram (Below)

namespace Arrangement

variable {settings : LayoutSettings Rat}

/-- Every node keeps its children at their distances. -/
def Spaced (settings : LayoutSettings Rat) (arrangement : Arrangement Rat) :
    Prop :=
  ∀ node ∈ arrangement.preorder,
    node.label.Spaced settings (node.children.map Program.label)

theorem Spaced.child {arrangement child : Arrangement Rat}
    (spaced : arrangement.Spaced settings)
    (childIn : child ∈ arrangement.children) : child.Spaced settings :=
  fun node nodeIn => spaced node (Program.mem_preorder_of_child childIn nodeIn)

/-- All nodes but the root stand below it. -/
theorem below_root {arrangement : Arrangement Rat} {origin : Point Rat}
    {parent : Option NodeId} {depth : Nat} {node : DiagramNode Rat}
    (nodeIn : node ∈ place origin parent depth arrangement) :
    node = nodeAt origin parent depth arrangement.tag arrangement.label ∨
      Below (place origin parent depth arrangement)
        (nodeAt origin parent depth arrangement.tag arrangement.label) node := by
  induction arrangement using Program.childrenInduction
    generalizing origin parent depth with
  | step arrangement ih =>
    rcases mem_place.mp nodeIn with isRoot | ⟨index, child, isChild, inChild⟩
    · exact .inl isRoot
    · have subset := place_subset isChild origin parent depth
      have childBelow := Below.child
        (self_mem_place origin parent depth arrangement)
        (subset (self_mem_place _ _ _ child)) rfl
      rcases ih child (List.mem_of_getElem? isChild) inChild with rfl | below
      · exact .inr childBelow
      · exact .inr (childBelow.trans (below.mono subset))

/-- The bounds of every node lie within those of the root. -/
theorem bounds_inside {arrangement : Arrangement Rat} (fits : arrangement.Fits)
    {origin : Point Rat} {parent : Option NodeId} {depth : Nat}
    {node : DiagramNode Rat}
    (nodeIn : node ∈ place origin parent depth arrangement) :
    node.bounds.Inside (arrangement.label.bounds origin) := by
  induction arrangement using Program.childrenInduction
    generalizing origin parent depth with
  | step arrangement ih =>
    rcases mem_place.mp nodeIn with rfl | ⟨index, child, isChild, inChild⟩
    · exact .refl _
    · exact (ih child (List.mem_of_getElem? isChild)
        (fits.child_of_getElem? isChild) inChild).trans
          (child_inside fits isChild origin)

/-- Two children of a node keep a distance. -/
theorem children_separated {arrangement child other : Arrangement Rat}
    (spaced : arrangement.Spaced settings) {index later : Nat}
    (isChild : arrangement.children[index]? = some child)
    (isOther : arrangement.children[later]? = some other)
    (different : index ≠ later) (origin : Point Rat) :
    (child.label.bounds (childOrigin origin arrangement.label index)).Separated
      settings.nearest
        (other.label.bounds (childOrigin origin arrangement.label later)) := by
  have root := spaced arrangement arrangement.self_mem_preorder
  rw [childOrigin_eq, childOrigin_eq, Frame.bounds_add, Frame.bounds_add]
  rcases Nat.lt_or_gt_of_ne different with isBefore | isAfter
  · exact (root.apart index later _ _ isBefore (frame_getElem? isChild)
      (frame_getElem? isOther)).translate origin
  · exact (root.apart later index _ _ isAfter (frame_getElem? isOther)
      (frame_getElem? isChild)).symm.translate origin

/-- Two nodes are one above the other or keep a distance. -/
theorem separated_place {arrangement : Arrangement Rat} (fits : arrangement.Fits)
    (spaced : arrangement.Spaced settings) {origin : Point Rat}
    {parent : Option NodeId} {depth : Nat} {first second : DiagramNode Rat}
    (firstIn : first ∈ place origin parent depth arrangement)
    (secondIn : second ∈ place origin parent depth arrangement) :
    first = second ∨ Below (place origin parent depth arrangement) first second ∨
      Below (place origin parent depth arrangement) second first ∨
      first.bounds.Separated settings.nearest second.bounds := by
  induction arrangement using Program.childrenInduction
    generalizing origin parent depth with
  | step arrangement ih =>
    rcases mem_place.mp firstIn with rfl | ⟨index, child, isChild, inChild⟩
    · rcases below_root secondIn with rfl | below
      · exact .inl rfl
      · exact .inr (.inl below)
    · rcases mem_place.mp secondIn with rfl | ⟨later, other, isOther, inOther⟩
      · rcases below_root firstIn with rfl | below
        · exact .inl rfl
        · exact .inr (.inr (.inl below))
      · by_cases same : index = later
        · subst same
          obtain rfl := Option.some.inj (isChild.symm.trans isOther)
          have subset := place_subset isChild origin parent depth
          have childIn := List.mem_of_getElem? isChild
          rcases ih child childIn (fits.child childIn) (spaced.child childIn)
            inChild inOther with same | below | below | separated
          · exact .inl same
          · exact .inr (.inl (below.mono subset))
          · exact .inr (.inr (.inl (below.mono subset)))
          · exact .inr (.inr (.inr separated))
        · have childSeparated := children_separated spaced isChild isOther same origin
          have firstInside := bounds_inside (fits.child_of_getElem? isChild) inChild
          have secondInside := bounds_inside (fits.child_of_getElem? isOther) inOther
          exact .inr (.inr (.inr ((childSeparated.inside firstInside).symm.inside
            secondInside).symm))

/-! ## The children of a node -/

theorem bounds_nodeAt (corner : Point Rat) (frame child : Frame Rat)
    (index : Nat) (outer : Option NodeId) (level : Nat) (tag : Tag) :
    (nodeAt (childOrigin corner frame index) outer level tag child).bounds =
      ⟨corner.x + (frame.offset index).x, corner.y + (frame.offset index).y,
        corner.x + (frame.offset index).x + child.size.width,
        corner.y + (frame.offset index).y + child.size.height⟩ := rfl

/-- The children of a node in the plane. -/
def childNodes (corner : Point Rat) (level : Nat) (shown : Arrangement Rat) :
    List (DiagramNode Rat) :=
  shown.children.zipIdx.map fun (child, index) =>
    nodeAt (childOrigin corner shown.label index) (some shown.label.id)
      (level + 1) child.tag child.label

/-- The identities of an arrangement. -/
def ids (arrangement : Arrangement Rat) : List NodeId :=
  arrangement.labels.map Frame.id

theorem ids_eq (arrangement : Arrangement Rat) :
    arrangement.ids =
      arrangement.label.id :: arrangement.children.flatMap ids := by
  rw [ids, Program.labels_eq, List.map_cons, List.map_flatMap]
  rfl

/-- All nodes but the root name a parent that is in the arrangement. -/
theorem parent_mem_ids {arrangement : Arrangement Rat} {origin : Point Rat}
    {depth index : Nat} {node : DiagramNode Rat}
    (nodeIn : node ∈ placeMembers origin arrangement.label depth index
      arrangement.children) :
    ∃ parent ∈ arrangement.ids, node.parent = some parent := by
  induction arrangement using Program.childrenInduction
    generalizing origin depth index with
  | step arrangement ih =>
    obtain ⟨position, child, isChild, inChild⟩ := mem_placeMembers.mp nodeIn
    have childIn := List.mem_of_getElem? isChild
    rw [ids_eq]
    rw [place_eq, List.mem_cons] at inChild
    rcases inChild with rfl | further
    · exact ⟨_, List.mem_cons_self, rfl⟩
    · obtain ⟨parent, parentIn, isParent⟩ := ih child childIn further
      exact ⟨parent, List.mem_cons_of_mem _
        (List.mem_flatMap.mpr ⟨child, childIn, parentIn⟩), isParent⟩

/-- In an arrangement that does not have it, only the root can name a parent. -/
theorem filter_of_notMem {arrangement : Arrangement Rat} {origin : Point Rat}
    {outer : Option NodeId} {depth : Nat} {parent : NodeId}
    (notIn : parent ∉ arrangement.ids) :
    (place origin outer depth arrangement).filter
        (fun node => node.parent = some parent) =
      if outer = some parent then
        [nodeAt origin outer depth arrangement.tag arrangement.label]
      else [] := by
  have noneBelow : (placeMembers origin arrangement.label (depth + 1) 0
      arrangement.children).filter (fun node => node.parent = some parent) =
        [] := by
    rw [List.filter_eq_nil_iff]
    intro node nodeIn isParent
    obtain ⟨other, otherIn, isOther⟩ := parent_mem_ids nodeIn
    rw [isOther] at isParent
    have same : other = parent := by simpa using isParent
    exact notIn (same ▸ otherIn)
  rw [place_eq, List.filter_cons, noneBelow]
  by_cases isOuter : outer = some parent <;> simp [isOuter, nodeAt]

theorem filter_own {origin : Point Rat} {frame : Frame Rat} {depth index : Nat}
    {members : List (Arrangement Rat)}
    (notIn : ∀ member ∈ members, frame.id ∉ member.ids) :
    (placeMembers origin frame depth index members).filter
        (fun node => node.parent = some frame.id) =
      (members.zipIdx index).map fun (member, index) =>
        nodeAt (childOrigin origin frame index) (some frame.id) depth member.tag
          member.label := by
  induction members generalizing index with
  | nil => rfl
  | cons member rest ih =>
      rw [placeMembers, List.filter_append,
        filter_of_notMem (notIn member List.mem_cons_self), if_pos rfl,
        ih fun other otherIn => notIn other (List.mem_cons_of_mem _ otherIn)]
      rfl

/-- Whoever names a parent inside a member is in this member. -/
theorem filter_inside {origin : Point Rat} {frame : Frame Rat}
    {depth index position : Nat} {members : List (Arrangement Rat)}
    {member : Arrangement Rat} {parent : NodeId}
    (distinct : (members.flatMap ids).Nodup) (notOwn : frame.id ≠ parent)
    (isMember : members[position]? = some member)
    (parentIn : parent ∈ member.ids) :
    (placeMembers origin frame depth index members).filter
        (fun node => node.parent = some parent) =
      (place (childOrigin origin frame (index + position)) (some frame.id) depth
        member).filter (fun node => node.parent = some parent) := by
  have elsewhere : ∀ (other : Arrangement Rat) (corner : Point Rat),
      parent ∉ other.ids →
        (place corner (some frame.id) depth other).filter
          (fun node => node.parent = some parent) = [] := by
    intro other corner notIn
    rw [filter_of_notMem notIn, if_neg (by simpa using notOwn)]
  induction members generalizing index position with
  | nil => simp at isMember
  | cons first rest ih =>
      rw [List.flatMap_cons, List.nodup_append] at distinct
      obtain ⟨-, restDistinct, apart⟩ := distinct
      rw [placeMembers, List.filter_append]
      cases position with
      | zero =>
          obtain rfl : first = member := by simpa using isMember
          have noneLater : (placeMembers origin frame depth (index + 1)
              rest).filter (fun node => node.parent = some parent) = [] := by
            rw [List.filter_eq_nil_iff]
            intro node nodeIn isParent
            obtain ⟨later, other, isOther, inOther⟩ := mem_placeMembers.mp nodeIn
            have notIn : parent ∉ other.ids := fun inOther =>
              apart parent parentIn parent
                (List.mem_flatMap.mpr
                  ⟨other, List.mem_of_getElem? isOther, inOther⟩) rfl
            have noneThere := elsewhere other
              (childOrigin origin frame (index + 1 + later)) notIn
            exact List.filter_eq_nil_iff.mp noneThere node inOther isParent
          rw [noneLater, List.append_nil, Nat.add_zero]
      | succ position =>
          have isLater : rest[position]? = some member := by simpa using isMember
          have notFirst : parent ∉ first.ids := fun inFirst =>
            apart parent inFirst parent (List.mem_flatMap.mpr
              ⟨member, List.mem_of_getElem? isLater, parentIn⟩) rfl
          rw [elsewhere first _ notFirst, List.nil_append,
            ih restDistinct isLater, Nat.add_assoc, Nat.add_comm 1]

theorem id_mem_ids {arrangement : Arrangement Rat} {origin : Point Rat}
    {parent : Option NodeId} {depth : Nat} {node : DiagramNode Rat}
    (nodeIn : node ∈ place origin parent depth arrangement) :
    node.id ∈ arrangement.ids := by
  rw [ids, ← ids_place origin parent depth]
  exact List.mem_map_of_mem nodeIn

/-- Every node shows a node of the arrangement, and so do those that name it as
their parent. -/
theorem exists_shown {arrangement : Arrangement Rat} {origin : Point Rat}
    {parent : Option NodeId} {depth : Nat} {node : DiagramNode Rat}
    (distinct : arrangement.ids.Nodup)
    (outside : ∀ id, parent = some id → id ∉ arrangement.ids)
    (nodeIn : node ∈ place origin parent depth arrangement) :
    ∃ shown ∈ arrangement.preorder, ∃ corner outer level,
      node = nodeAt corner outer level shown.tag shown.label ∧
        (place origin parent depth arrangement).filter
          (fun other => other.parent = some node.id) =
            childNodes corner level shown := by
  induction arrangement using Program.childrenInduction
    generalizing origin parent depth with
  | step arrangement ih =>
    rw [ids_eq, List.nodup_cons] at distinct
    obtain ⟨ownNew, distinct⟩ := distinct
    rw [ids_eq] at outside
    have rootElsewhere : ∀ id ∈ ids arrangement,
        (place origin parent depth arrangement).filter
          (fun other => other.parent = some id) =
            (placeMembers origin arrangement.label (depth + 1) 0
              arrangement.children).filter
                (fun other => other.parent = some id) := by
      intro id idIn
      rw [ids_eq] at idIn
      rw [place_eq, List.filter_cons_of_neg]
      intro isParent
      have named : parent = some id := of_decide_eq_true isParent
      exact outside id named idIn
    rcases mem_place.mp nodeIn with rfl | ⟨index, child, isChild, inChild⟩
    · refine ⟨arrangement, arrangement.self_mem_preorder, origin, parent, depth,
        rfl, ?_⟩
      rw [rootElsewhere _ (id_mem_ids nodeIn)]
      refine filter_own fun child childIn inChild => ownNew ?_
      exact List.mem_flatMap.mpr ⟨child, childIn, inChild⟩
    · have childIn := List.mem_of_getElem? isChild
      have childDistinct : (ids child).Nodup :=
        (List.nodup_flatMap.mp distinct).1 child childIn
      have notInside : arrangement.label.id ∉ ids child := fun inside =>
        ownNew (List.mem_flatMap.mpr ⟨child, childIn, inside⟩)
      obtain ⟨shown, shownIn, corner, outer, level, isShown, children⟩ :=
        ih child childIn childDistinct
          (fun id isOwn => by
            obtain rfl := Option.some.inj isOwn
            exact notInside) inChild
      refine ⟨shown, Program.mem_preorder_of_child childIn shownIn, corner, outer,
        level, isShown, ?_⟩
      have nodeInside := id_mem_ids inChild
      have different : arrangement.label.id ≠ node.id := fun same =>
        notInside (same ▸ nodeInside)
      rw [rootElsewhere _ (id_mem_ids nodeIn),
        filter_inside distinct different isChild nodeInside, Nat.zero_add]
      exact children

theorem isChain_childNodes {corner : Point Rat} {level : Nat}
    {shown : Arrangement Rat}
    {related : DiagramNode Rat → DiagramNode Rat → Prop}
    (next : ∀ (index : Nat) (first second : Arrangement Rat),
      shown.children[index]? = some first →
      shown.children[index + 1]? = some second →
      related
        (nodeAt (childOrigin corner shown.label index) (some shown.label.id)
          (level + 1) first.tag first.label)
        (nodeAt (childOrigin corner shown.label (index + 1))
          (some shown.label.id) (level + 1) second.tag second.label)) :
    (childNodes corner level shown).IsChain related := by
  rw [List.isChain_iff_getElem]
  intro index inside
  have insideChildren : index + 1 < shown.children.length := by
    simpa [childNodes] using inside
  have related := next index _ _
    (List.getElem?_eq_getElem (Nat.lt_of_succ_lt insideChildren))
    (List.getElem?_eq_getElem insideChildren)
  simpa [childNodes] using related

theorem mem_childNodes {corner : Point Rat} {level : Nat}
    {shown : Arrangement Rat} {node : DiagramNode Rat} :
    node ∈ childNodes corner level shown ↔
      ∃ index child, shown.children[index]? = some child ∧
        node = nodeAt (childOrigin corner shown.label index)
          (some shown.label.id) (level + 1) child.tag child.label := by
  rw [childNodes, List.mem_map]
  constructor
  · rintro ⟨⟨child, index⟩, isChild, rfl⟩
    exact ⟨index, child, List.mem_zipIdx_iff_getElem?.mp isChild, rfl⟩
  · rintro ⟨index, child, isChild, rfl⟩
    exact ⟨(child, index), List.mem_zipIdx_iff_getElem?.mpr isChild, rfl⟩

end Arrangement

/-! ## Distances in the diagram of a tree -/

/-- All nodes of a diagram keep the distances of the settings. -/
structure Diagram.KeepsDistances (settings : LayoutSettings Rat)
    (diagram : Diagram Rat) : Prop where
  apart : ∀ first ∈ diagram.nodes, ∀ second ∈ diagram.nodes, first ≠ second →
    ¬ Below diagram.nodes first second → ¬ Below diagram.nodes second first →
      first.bounds.Separated settings.nearest second.bounds
  below : ∀ node ∈ diagram.nodes, ∀ figure, node.figure = some figure →
    ∀ child ∈ diagram.children node.id,
      figure.maxY + settings.statementSpacing ≤ child.bounds.minY
  figures : ∀ first ∈ diagram.nodes, ∀ second ∈ diagram.nodes, first ≠ second →
    ∀ figure other, first.figure = some figure → second.figure = some other →
      ∀ point, figure.Holds point → ¬ other.Holds point
  block : ∀ node ∈ diagram.nodes, node.tag = .block →
    (diagram.children node.id).IsChain fun first second =>
      first.bounds.maxY + settings.statementSpacing = second.bounds.minY
  decision : ∀ node ∈ diagram.nodes, node.tag = .decision →
    (diagram.children node.id).IsChain fun consequent alternative =>
      consequent.bounds.maxX + settings.branchGap ≤ alternative.bounds.minX ∧
        ∃ figure, node.figure = some figure ∧
          figure.maxX + settings.branchGap ≤ alternative.bounds.minX
  selection : ∀ node ∈ diagram.nodes, node.tag = .selection →
    (diagram.children node.id).IsChain fun first second =>
      first.bounds.maxX + settings.branchGap = second.bounds.minX

namespace Program

theorem spaced_preorder {settings : LayoutSettings Rat}
    (accepted : settings.Accepted) (program : Program (Label Rat)) :
    Arrangement.Spaced settings (program.framed settings) := by
  intro node nodeIn
  rw [preorder_framed] at nodeIn
  obtain ⟨inner, -, rfl⟩ := List.mem_map.mp nodeIn
  exact inner.spaced_framed accepted

variable {settings : LayoutSettings Rat} (accepted : settings.Accepted)
  (program : Program (Label Rat)) (corner : Point Rat) (outer : Option NodeId)
  (level : Nat)

/-- The node of the diagram that shows a program. -/
def shownAt (settings : LayoutSettings Rat) (corner : Point Rat)
    (outer : Option NodeId) (level : Nat) (program : Program (Label Rat)) :
    DiagramNode Rat :=
  Arrangement.nodeAt corner outer level (program.framed settings).tag
    (program.framed settings).label

include accepted in
theorem below_shown {figure : Rect Rat}
    (isFigure : (program.shownAt settings corner outer level).figure =
      some figure) {child : DiagramNode Rat}
    (childIn : child ∈
      Arrangement.childNodes corner level (program.framed settings)) :
    figure.maxY + settings.statementSpacing ≤ child.bounds.minY := by
  obtain ⟨original, isOriginal, rfl⟩ := Option.map_eq_some_iff.mp isFigure
  obtain ⟨index, shown, isChild, rfl⟩ := Arrangement.mem_childNodes.mp childIn
  have spaced := (program.spaced_framed accepted).below original isOriginal index
    shown.label (Arrangement.frame_getElem? isChild)
  rw [Arrangement.bounds_nodeAt]
  simp only [Rect.translate]
  linarith

theorem block_shown (isBlock : (program.framed settings).tag = .block) :
    (Arrangement.childNodes corner level (program.framed settings)).IsChain
      fun first second =>
        first.bounds.maxY + settings.statementSpacing = second.bounds.minY := by
  apply Arrangement.isChain_childNodes
  intro index first second isFirst isSecond
  cases program with
  | block label members =>
      have isFrame := Arrangement.frame_getElem? isFirst
      have isNext := Arrangement.frame_getElem? isSecond
      cases members with
      | nil => simp [framed, framedMembers, children] at isFirst
      | cons head rest =>
          have next : ((framed settings
              (.block label (head :: rest))).label.offset index).y +
                first.label.size.height + settings.statementSpacing =
              ((framed settings
                (.block label (head :: rest))).label.offset (index + 1)).y :=
            Frame.column_next label settings.statementSpacing isFrame isNext
          simp only [Arrangement.bounds_nodeAt]
          linarith
  | decision label consequent alternative =>
      cases alternative <;> simp [framed, tag] at isBlock
  | _ => simp [framed, tag] at isBlock

theorem decision_shown (isDecision : (program.framed settings).tag = .decision) :
    (Arrangement.childNodes corner level (program.framed settings)).IsChain
      fun consequent alternative =>
        consequent.bounds.maxX + settings.branchGap ≤ alternative.bounds.minX ∧
          ∃ figure, (program.shownAt settings corner outer level).figure =
            some figure ∧
              figure.maxX + settings.branchGap ≤ alternative.bounds.minX := by
  apply Arrangement.isChain_childNodes
  intro index first second isFirst isSecond
  cases program with
  | decision label consequent alternative =>
      cases alternative with
      | none => simp [framed, children] at isSecond
      | some alternative =>
          have isPair : index = 0 := by
            have inside := (List.getElem?_eq_some_iff.mp isSecond).1
            simp [framed, children] at inside
            omega
          subst isPair
          obtain rfl : consequent.framed settings = first := by
            simpa [framed, children] using isFirst
          obtain rfl : alternative.framed settings = second := by
            simpa [framed, children] using isSecond
          have frame_eq : (framed settings
              (.decision label consequent (some alternative))).label =
                Frame.decision label
                  (Arrangement.figureSize settings .decision label) settings
                  (consequent.framed settings).label
                  (some (alternative.framed settings).label) := rfl
          obtain ⟨right, rightOfFigure⟩ := Frame.decision_row settings label
            (Arrangement.figureSize settings .decision label)
            (consequent.framed settings).label
            (alternative.framed settings).label
          rw [← frame_eq] at right rightOfFigure
          have isFigure : (shownAt settings corner outer level
              (.decision label consequent (some alternative))).figure = some
                ((Frame.figureOn (framed settings (.decision label consequent
                  (some alternative))).label.spine 0
                    (Arrangement.figureSize settings .decision label)).translate
                      corner) := rfl
          simp only [Arrangement.bounds_nodeAt, Nat.zero_add]
          refine ⟨by linarith, _, isFigure, ?_⟩
          simp only [Rect.translate]
          linarith
  | block label members => cases members <;> simp [framed, tag] at isDecision
  | _ => simp [framed, tag] at isDecision

theorem selection_shown
    (isSelection : (program.framed settings).tag = .selection) :
    (Arrangement.childNodes corner level (program.framed settings)).IsChain
      fun first second =>
        first.bounds.maxX + settings.branchGap = second.bounds.minX := by
  apply Arrangement.isChain_childNodes
  intro index first second isFirst isSecond
  cases program with
  | selection label arms =>
      have isFrame := Arrangement.frame_getElem? isFirst
      have isNext := Arrangement.frame_getElem? isSecond
      have children_eq : (framed settings (.selection label arms)).children.map
          Program.label =
            (framedArms settings arms).map fun arm => arm.2.label := by
        simp [framed, children]
      rw [children_eq] at isFrame isNext
      have next : ((framed settings (.selection label arms)).label.offset
            index).x + first.label.size.width + settings.branchGap =
          ((framed settings (.selection label arms)).label.offset
            (index + 1)).x :=
        Frame.selection_next settings label _ isFrame isNext
      simp only [Arrangement.bounds_nodeAt]
      linarith
  | decision label consequent alternative =>
      cases alternative <;> simp [framed, tag] at isSelection
  | block label members => cases members <;> simp [framed, tag] at isSelection
  | _ => simp [framed, tag] at isSelection

end Program

namespace Diagram

variable {settings : LayoutSettings Rat}

/-- Marking keeps who stands below whom. -/
theorem Below.map {α : Type} {nodes : List (DiagramNode α)}
    (mark : DiagramNode α → DiagramNode α)
    (sameId : ∀ node, (mark node).id = node.id)
    (sameParent : ∀ node, (mark node).parent = node.parent)
    {upper lower : DiagramNode α} (below : Below nodes upper lower) :
    Below (nodes.map mark) (mark upper) (mark lower) := by
  induction below with
  | child upperIn lowerIn isParent =>
      refine .child (List.mem_map_of_mem upperIn) (List.mem_map_of_mem lowerIn) ?_
      rw [sameParent, sameId, isParent]
  | further _ lowerIn isParent ih =>
      refine .further ih (List.mem_map_of_mem lowerIn) ?_
      rw [sameParent, sameId, isParent]

/-- Marking a diagram moves nothing. -/
theorem KeepsDistances.markReachable {diagram : Diagram Rat}
    (keeps : diagram.KeepsDistances settings) (starts : List NodeId) :
    (diagram.markReachable starts).KeepsDistances settings where
  apart := by
    intro first firstIn second secondIn different notBelow notAbove
    obtain ⟨plain, plainIn, rfl⟩ := List.mem_map.mp firstIn
    obtain ⟨other, otherIn, rfl⟩ := List.mem_map.mp secondIn
    have distinct : plain ≠ other := fun same => different (by rw [same])
    refine keeps.apart plain plainIn other otherIn distinct ?_ ?_
    · exact fun below => notBelow
        (below.map (diagram.marked starts) (fun _ => rfl) fun _ => rfl)
    · exact fun above => notAbove
        (above.map (diagram.marked starts) (fun _ => rfl) fun _ => rfl)
  below := by
    intro node nodeIn figure isFigure child childIn
    obtain ⟨plain, plainIn, rfl⟩ := List.mem_map.mp nodeIn
    rw [children_markReachable] at childIn
    obtain ⟨plainChild, plainChildIn, rfl⟩ := List.mem_map.mp childIn
    exact keeps.below plain plainIn figure isFigure plainChild plainChildIn
  figures := by
    intro first firstIn second secondIn different figure other isFigure isOther
    obtain ⟨plain, plainIn, rfl⟩ := List.mem_map.mp firstIn
    obtain ⟨plainOther, plainOtherIn, rfl⟩ := List.mem_map.mp secondIn
    have distinct : plain ≠ plainOther := fun same => different (by rw [same])
    exact keeps.figures plain plainIn plainOther plainOtherIn distinct figure
      other isFigure isOther
  block := by
    intro node nodeIn isBlock
    obtain ⟨plain, plainIn, rfl⟩ := List.mem_map.mp nodeIn
    rw [children_markReachable, List.isChain_map]
    exact keeps.block plain plainIn isBlock
  decision := by
    intro node nodeIn isDecision
    obtain ⟨plain, plainIn, rfl⟩ := List.mem_map.mp nodeIn
    rw [children_markReachable, List.isChain_map]
    exact keeps.decision plain plainIn isDecision
  selection := by
    intro node nodeIn isSelection
    obtain ⟨plain, plainIn, rfl⟩ := List.mem_map.mp nodeIn
    rw [children_markReachable, List.isChain_map]
    exact keeps.selection plain plainIn isSelection

/-- Every node of the plane shows a program that is framed. -/
theorem exists_shownAt {program : Program (Label Rat)}
    (distinct : program.ids.Nodup) {node : DiagramNode Rat}
    (nodeIn : node ∈ (unmarked (program.framed settings)).nodes) :
    ∃ inner ∈ program.preorder, ∃ corner outer level,
      node = inner.shownAt settings corner outer level ∧
        (unmarked (program.framed settings)).children node.id =
          Arrangement.childNodes corner level (inner.framed settings) := by
  have framedDistinct : (program.framed settings).ids.Nodup := by
    rwa [Arrangement.ids, Program.ids_framed]
  obtain ⟨shown, shownIn, corner, outer, level, isShown, children⟩ :=
    Arrangement.exists_shown framedDistinct (by simp) nodeIn
  rw [Program.preorder_framed] at shownIn
  obtain ⟨inner, innerIn, rfl⟩ := List.mem_map.mp shownIn
  exact ⟨inner, innerIn, corner, outer, level, isShown, children⟩

/-- A node spans its children. -/
theorem children_inside (accepted : settings.Accepted)
    {program : Program (Label Rat)} (distinct : program.ids.Nodup)
    {node child : DiagramNode Rat}
    (nodeIn : node ∈ (unmarked (program.framed settings)).nodes)
    (childIn : child ∈ (unmarked (program.framed settings)).children node.id) :
    child.bounds.Inside node.bounds := by
  obtain ⟨inner, -, corner, outer, level, rfl, children⟩ :=
    exists_shownAt distinct nodeIn
  rw [children] at childIn
  obtain ⟨index, shown, isChild, rfl⟩ := Arrangement.mem_childNodes.mp childIn
  exact Arrangement.child_inside (inner.fits_framed accepted) isChild corner

theorem figure_inside (accepted : settings.Accepted)
    {program : Program (Label Rat)} (distinct : program.ids.Nodup)
    {node : DiagramNode Rat}
    (nodeIn : node ∈ (unmarked (program.framed settings)).nodes)
    {figure : Rect Rat} (isFigure : node.figure = some figure) :
    figure.Inside node.bounds := by
  obtain ⟨inner, -, corner, outer, level, rfl, -⟩ :=
    exists_shownAt distinct nodeIn
  exact Arrangement.figures_inside (inner.fits_framed accepted) corner outer level
    _ (Arrangement.self_mem_place corner outer level _) figure isFigure

/-- The figure of a node ends above all that stands below the node. -/
theorem figure_above (accepted : settings.Accepted)
    {program : Program (Label Rat)} (distinct : program.ids.Nodup)
    {upper lower : DiagramNode Rat}
    (below : Below (unmarked (program.framed settings)).nodes upper lower)
    {figure : Rect Rat} (isFigure : upper.figure = some figure) :
    figure.maxY + settings.statementSpacing ≤ lower.bounds.minY := by
  induction below with
  | child upperIn lowerIn isParent =>
      obtain ⟨inner, -, corner, outer, level, rfl, children⟩ :=
        exists_shownAt distinct upperIn
      apply inner.below_shown accepted corner outer level isFigure
      rw [← children]
      exact List.mem_filter.mpr ⟨lowerIn, by simpa using isParent⟩
  | @further middle lower above lowerIn isParent ih =>
      have within : lower.bounds.Inside middle.bounds :=
        children_inside accepted distinct above.lower_mem
          (List.mem_filter.mpr ⟨lowerIn, by simpa using isParent⟩)
      exact ih.trans within.2.2.1

theorem figures_disjoint (accepted : settings.Accepted)
    {program : Program (Label Rat)} (distinct : program.ids.Nodup)
    {first second : DiagramNode Rat}
    (firstIn : first ∈ (unmarked (program.framed settings)).nodes)
    (secondIn : second ∈ (unmarked (program.framed settings)).nodes)
    (different : first ≠ second) {figure other : Rect Rat}
    (isFigure : first.figure = some figure) (isOther : second.figure = some other) :
    figure.Separated settings.nearest other := by
  have within := figure_inside accepted distinct firstIn isFigure
  have otherWithin := figure_inside accepted distinct secondIn isOther
  -- the figure of a node that is above another one ends above its bounds
  have vertical : ∀ {upper lower : Rect Rat} {bounds : Rect Rat},
      upper.maxY + settings.statementSpacing ≤ bounds.minY →
        lower.Inside bounds → upper.Separated settings.nearest lower := by
    intro upper lower bounds isAbove inside
    have separated : upper.Separated settings.statementSpacing bounds :=
      .inr (.inr (.inl isAbove))
    exact ((separated.mono (min_le_left _ _)).symm.inside inside).symm
  have fits := program.fits_framed accepted
  rcases Arrangement.separated_place fits (program.spaced_preorder accepted) firstIn
    secondIn with same | below | above | separated
  · exact absurd same different
  · exact vertical (figure_above accepted distinct below isFigure) otherWithin
  · exact (vertical (figure_above accepted distinct above isOther) within).symm
  · exact ((separated.inside within).symm.inside otherWithin).symm

/-- The nodes of a program that is framed keep their distances. -/
theorem keepsDistances_unmarked (accepted : settings.Accepted)
    {program : Program (Label Rat)} (distinct : program.ids.Nodup) :
    (unmarked (program.framed settings)).KeepsDistances settings where
  apart := by
    intro first firstIn second secondIn different notBelow notAbove
    have fits := program.fits_framed accepted
    rcases Arrangement.separated_place fits (program.spaced_preorder accepted)
      firstIn secondIn with same | below | above | separated
    · exact absurd same different
    · exact absurd below notBelow
    · exact absurd above notAbove
    · exact separated
  below := by
    intro node nodeIn figure isFigure child childIn
    obtain ⟨inner, -, corner, outer, level, rfl, children⟩ :=
      exists_shownAt distinct nodeIn
    rw [children] at childIn
    exact inner.below_shown accepted corner outer level isFigure childIn
  figures := by
    intro first firstIn second secondIn different figure other isFigure isOther
      point holds
    have separated := figures_disjoint accepted distinct firstIn secondIn different
      isFigure isOther
    exact separated.disjoint
      (lt_min accepted.spacing_pos accepted.branchGap_pos) holds
  block := by
    intro node nodeIn isBlock
    obtain ⟨inner, -, corner, outer, level, rfl, children⟩ :=
      exists_shownAt distinct nodeIn
    rw [children]
    exact inner.block_shown corner level isBlock
  decision := by
    intro node nodeIn isDecision
    obtain ⟨inner, -, corner, outer, level, rfl, children⟩ :=
      exists_shownAt distinct nodeIn
    rw [children]
    exact inner.decision_shown corner outer level isDecision
  selection := by
    intro node nodeIn isSelection
    obtain ⟨inner, -, corner, outer, level, rfl, children⟩ :=
      exists_shownAt distinct nodeIn
    rw [children]
    exact inner.selection_shown corner level isSelection

end Diagram

/-- The layout of a tree that passes validation keeps all distances. -/
theorem Tree.layout_keepsDistances {settings : LayoutSettings Rat}
    {tree : Tree Rat} (usable : settings.validate = .ok ())
    (valid : tree.validate settings.maxDepth = .ok ()) :
    ∃ diagram, tree.layout settings = .ok diagram ∧
      diagram.KeepsDistances settings := by
  have accepted := LayoutSettings.validate_accepted usable
  obtain ⟨program, stores⟩ := exists_stores valid
  exact ⟨_, layout_exact accepted valid stores,
    (Diagram.keepsDistances_unmarked accepted stores.ids_nodup).markReachable _⟩

/-- A loop over a decision, followed by a selection. -/
def bothBranchings : Program NodeId :=
  .block "all" [
    .loop "loop" .whileHolds (.decision "if" (.statement "then" .expression)
      (some (.result "else"))),
    .selection "match" [("one", .block "first" []), ("two", .result "second")]]

theorem Tree.layout_keepsDistances_bothBranchings :
    (LayoutSettings.standard : LayoutSettings Rat).validate = .ok () ∧
      bothBranchings.plainTree.validate
        (LayoutSettings.standard : LayoutSettings Rat).maxDepth = .ok () ∧
      ∃ diagram, bothBranchings.plainTree.layout .standard = .ok diagram ∧
        diagram.KeepsDistances .standard := by
  have usable : (LayoutSettings.standard : LayoutSettings Rat).validate =
      .ok () := by
    decide +kernel
  have valid : bothBranchings.plainTree.validate
      (LayoutSettings.standard : LayoutSettings Rat).maxDepth = .ok () := by
    cbv
  exact ⟨usable, valid, layout_keepsDistances usable valid⟩

end Flowchart
