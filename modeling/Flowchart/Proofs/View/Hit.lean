import Flowchart.Proofs.Layout.Distances
import Flowchart.View.Canvas

/-!
# What lies under a point of the screen

In exact arithmetic a node holds all nodes below it, and two children of one node
have no point in common.  So the nodes around a point lead down from the root, each
of them a child of the one before it.  There is only one of every depth: the deepest
one is the last one on the way, and none of its children is around the point.
-/

namespace Flowchart

open Scalar

namespace Diagram

variable {α : Type}

/-- The nodes around a point, in the order of the diagram. -/
def around [Scalar α] (diagram : Diagram α) (point : Point α) :
    List (DiagramNode α) :=
  diagram.nodes.filter fun node => node.bounds.contains point

/-! ## Ways down -/

/-- Nodes of which each is a child of the one before it.  The first one stands
in a given parent, at a given depth. -/
inductive Descends : Option NodeId → Nat → List (DiagramNode α) → Prop where
  | done {parent : Option NodeId} {depth : Nat} : Descends parent depth []
  | step {parent : Option NodeId} {depth : Nat} {node : DiagramNode α}
      {rest : List (DiagramNode α)} : node.parent = parent → node.depth = depth →
      Descends (some node.id) (depth + 1) rest → Descends parent depth (node :: rest)

variable {parent : Option NodeId} {depth : Nat} {nodes : List (DiagramNode α)}

theorem Descends.map (descends : Descends parent depth nodes)
    (mark : DiagramNode α → DiagramNode α) (sameId : ∀ node, (mark node).id = node.id)
    (sameParent : ∀ node, (mark node).parent = node.parent)
    (sameDepth : ∀ node, (mark node).depth = node.depth) :
    Descends parent depth (nodes.map mark) := by
  induction descends with
  | done => exact .done
  | @step parent depth node rest isParent isDepth _ ih =>
      refine .step ((sameParent node).trans isParent) ((sameDepth node).trans isDepth) ?_
      rw [sameId]
      exact ih

theorem Descends.head (descends : Descends parent depth nodes) :
    ∀ node ∈ nodes.head?, node.parent = parent := by
  cases descends with
  | done => simp
  | step isParent =>
      rintro node ⟨⟩
      exact isParent

theorem Descends.isChain (descends : Descends parent depth nodes) :
    nodes.IsChain fun upper lower =>
      lower.parent = some upper.id ∧ lower.depth = upper.depth + 1 := by
  induction descends with
  | done => exact .nil
  | step isParent isDepth further ih =>
      refine List.isChain_cons.mpr ⟨?_, ih⟩
      intro lower isLower
      cases further with
      | done => cases isLower
      | step lowerParent lowerDepth =>
          cases isLower
          exact ⟨lowerParent, by rw [lowerDepth, isDepth]⟩

/-- All nodes but the first name one before the last as their parent. -/
theorem Descends.parent_mem (descends : Descends parent depth nodes)
    {node : DiagramNode α} (nodeIn : node ∈ nodes) :
    node.parent = parent ∨ ∃ upper ∈ nodes.dropLast, node.parent = some upper.id := by
  induction descends with
  | done => cases nodeIn
  | @step _ _ first rest isParent _ _ ih =>
      rcases List.mem_cons.mp nodeIn with rfl | later
      · exact .inl isParent
      · right
        rw [List.dropLast_cons_of_ne_nil (List.ne_nil_of_mem later)]
        rcases ih later with ofFirst | ⟨upper, upperIn, ofUpper⟩
        · exact ⟨first, List.mem_cons_self, ofFirst⟩
        · exact ⟨upper, List.mem_cons_of_mem _ upperIn, ofUpper⟩

/-- The last node on the way is nobody's parent there. -/
theorem Descends.parent_ne_last (descends : Descends none depth nodes)
    (distinct : (nodes.map DiagramNode.id).Nodup) {node last : DiagramNode α}
    (nodeIn : node ∈ nodes) (isLast : nodes.getLast? = some last) :
    node.parent ≠ some last.id := by
  intro ofLast
  rcases descends.parent_mem nodeIn with isRoot | ⟨upper, upperIn, ofUpper⟩
  · rw [isRoot] at ofLast
    cases ofLast
  · have sameId : upper.id = last.id :=
      Option.some.inj (ofUpper.symm.trans ofLast)
    obtain ⟨before, rfl⟩ := List.getLast?_eq_some_iff.mp isLast
    rw [List.dropLast_concat] at upperIn
    rw [List.map_append, List.nodup_append] at distinct
    exact distinct.2.2 _ (List.mem_map_of_mem upperIn) _
      (List.mem_map_of_mem (List.mem_singleton_self last)) sameId

/-! ## The deepest node -/

/-- The deeper one of two nodes, and the second one of two as deep. -/
def deeper (best : Option (DiagramNode α)) (node : DiagramNode α) :
    Option (DiagramNode α) :=
  match best with
  | some other => if node.depth < other.depth then best else some node
  | none => some node

/-- Every node on a way down is deeper than those before it. -/
theorem Descends.foldl_deeper (descends : Descends parent depth nodes)
    {best : Option (DiagramNode α)} (above : ∀ other ∈ best, other.depth < depth) :
    nodes.foldl deeper best = nodes.getLast?.or best := by
  induction descends generalizing best with
  | done => simp
  | @step _ depth node rest _ isDepth _ ih =>
      have isDeeper : deeper best node = some node := by
        cases best with
        | none => rfl
        | some other =>
            have isAbove := above other rfl
            have notAbove : ¬ node.depth < other.depth := by omega
            exact if_neg notAbove
      have below : ∀ other ∈ some node, other.depth < depth + 1 := by
        rintro other ⟨⟩
        omega
      rw [List.foldl_cons, isDeeper, ih below, List.getLast?_cons]
      cases rest.getLast? <;> rfl

theorem innermostAt?_eq [Scalar α] (diagram : RoutedDiagram α) (point : Point α) :
    diagram.innermostAt? point =
      (diagram.toDiagram.around point).foldl deeper none := by
  rw [around, List.foldl_filter]
  rfl

end Diagram

/-! ## The nodes around a point -/

namespace Arrangement

open Diagram (Descends)

variable {settings : LayoutSettings Rat} {point : Point Rat}

/-- The nodes of an arrangement around a point. -/
def around (point origin : Point Rat) (parent : Option NodeId) (depth : Nat)
    (arrangement : Arrangement Rat) : List (DiagramNode Rat) :=
  (place origin parent depth arrangement).filter fun node =>
    node.bounds.contains point

/-- A point outside the root is outside all nodes. -/
theorem around_eq_nil {arrangement : Arrangement Rat} (fits : arrangement.Fits)
    {origin : Point Rat} {parent : Option NodeId} {depth : Nat}
    (outside : ¬ (arrangement.label.bounds origin).Holds point) :
    around point origin parent depth arrangement = [] := by
  rw [around, List.filter_eq_nil_iff]
  intro node nodeIn isAround
  exact outside
    ((bounds_inside fits nodeIn).holds (Rect.contains_iff_holds.mp isAround))

/-- Where no two members are around a point, the nodes around it are those of one
member. -/
theorem descends_members {origin : Point Rat} {frame : Frame Rat}
    {depth index : Nat} {members : List (Arrangement Rat)}
    (each : ∀ (position : Nat) (member : Arrangement Rat),
      members[position]? = some member → Descends (some frame.id) depth
        (around point (childOrigin origin frame (index + position)) (some frame.id)
          depth member))
    (alone : ∀ (position later : Nat) (member other : Arrangement Rat),
      members[position]? = some member → members[later]? = some other →
      position < later →
        around point (childOrigin origin frame (index + position)) (some frame.id)
            depth member = [] ∨
          around point (childOrigin origin frame (index + later)) (some frame.id)
            depth other = []) :
    Descends (some frame.id) depth
      ((placeMembers origin frame depth index members).filter fun node =>
        node.bounds.contains point) := by
  induction members generalizing index with
  | nil => exact .done
  | cons first rest ih =>
      rw [placeMembers, List.filter_append]
      have aroundFirst := each 0 first rfl
      by_cases isOutside : around point (childOrigin origin frame (index + 0))
          (some frame.id) depth first = []
      · rw [around, Nat.add_zero] at isOutside
        rw [isOutside, List.nil_append]
        refine ih (fun position member isMember => ?_)
          fun position later member other isMember isOther isBefore => ?_
        · rw [Nat.add_assoc, Nat.add_comm 1]
          exact each (position + 1) member isMember
        · rw [Nat.add_assoc, Nat.add_comm 1, Nat.add_assoc, Nat.add_comm 1]
          exact alone (position + 1) (later + 1) member other isMember isOther
            (Nat.succ_lt_succ isBefore)
      · have noneLater : (placeMembers origin frame depth (index + 1) rest).filter
            (fun node => node.bounds.contains point) = [] := by
          rw [List.filter_eq_nil_iff]
          intro node nodeIn
          obtain ⟨position, member, isMember, inMember⟩ := mem_placeMembers.mp nodeIn
          rw [Nat.add_assoc, Nat.add_comm 1] at inMember
          have memberOutside := (alone 0 (position + 1) first member rfl isMember
            (Nat.succ_pos position)).resolve_left isOutside
          exact List.filter_eq_nil_iff.mp memberOutside node inMember
        rw [noneLater, List.append_nil]
        exact aroundFirst

/-- The nodes around a point lead down from the root. -/
theorem descends_around {arrangement : Arrangement Rat} (fits : arrangement.Fits)
    (spaced : arrangement.Spaced settings) (positive : 0 < settings.nearest)
    (origin : Point Rat) (parent : Option NodeId) (depth : Nat) :
    Descends parent depth (around point origin parent depth arrangement) := by
  induction arrangement using Program.childrenInduction
    generalizing origin parent depth with
  | step arrangement ih =>
    by_cases isInside : (arrangement.label.bounds origin).Holds point
    · have rootAround : (nodeAt origin parent depth arrangement.tag
          arrangement.label).bounds.contains point = true :=
        Rect.contains_iff_holds.mpr isInside
      rw [around, place_eq, List.filter_cons, if_pos rootAround]
      refine .step rfl rfl (descends_members ?_ ?_)
      · intro position child isChild
        have childIn := List.mem_of_getElem? isChild
        exact ih child childIn (fits.child childIn) (spaced.child childIn) _ _ _
      · intro position later child other isChild isOther isBefore
        rw [Nat.zero_add, Nat.zero_add]
        have separated := children_separated spaced isChild isOther
          (Nat.ne_of_lt isBefore) origin
        by_cases inChild : (child.label.bounds
            (childOrigin origin arrangement.label position)).Holds point
        · exact .inr (around_eq_nil (fits.child_of_getElem? isOther)
            (separated.disjoint positive inChild))
        · exact .inl (around_eq_nil (fits.child_of_getElem? isChild) inChild)
    · rw [around_eq_nil fits isInside]
      exact .done

/-- Only the root names no parent. -/
theorem id_of_parent_none {arrangement : Arrangement Rat} {origin : Point Rat}
    {parent : Option NodeId} {depth : Nat} {node : DiagramNode Rat}
    (nodeIn : node ∈ place origin parent depth arrangement)
    (isRoot : node.parent = none) : node.id = arrangement.label.id := by
  rw [place_eq, List.mem_cons] at nodeIn
  rcases nodeIn with rfl | inChildren
  · rfl
  · obtain ⟨holder, -, isHolder⟩ := parent_mem_ids inChildren
    rw [isHolder] at isRoot
    cases isRoot

end Arrangement

/-! ## Hits -/

namespace Canvas

variable {α : Type} [Scalar α]

/-- The nodes of a view around the point of the plane that is shown at a point of
the screen. -/
def under (canvas : Canvas α) (point : Point α) : List (DiagramNode α) :=
  canvas.snapshot.diagram.toDiagram.around (canvas.viewport.toDiagram point)

/-- The nodes under a point lead down from the root, each a child of the one before
it, and the last of them is hit. -/
structure HitsInnermost (canvas : Canvas α) (point : Point α) : Prop where
  root : ∀ node ∈ (canvas.under point).head?,
    node.id = canvas.snapshot.diagram.root ∧ node.parent = none
  descends : (canvas.under point).IsChain fun upper lower =>
    lower.parent = some upper.id ∧ lower.depth = upper.depth + 1
  hit : canvas.hit? point = (canvas.under point).getLast?.map DiagramNode.id
  miss : canvas.hit? point = none ↔ canvas.under point = []
  /-- No child of the last node is under the point. -/
  innermost : ∀ node ∈ (canvas.under point).getLast?,
    ∀ child ∈ canvas.snapshot.diagram.toDiagram.children node.id,
      child.bounds.contains (canvas.viewport.toDiagram point) = false

theorem hitsInnermost_of_descends {canvas : Canvas α} {point : Point α}
    (descends : Diagram.Descends none 0 (canvas.under point))
    (distinct : (canvas.snapshot.diagram.nodes.map DiagramNode.id).Nodup)
    (isRoot : ∀ node ∈ canvas.snapshot.diagram.nodes, node.parent = none →
      node.id = canvas.snapshot.diagram.root) : canvas.HitsInnermost point := by
  have isHit : canvas.hit? point =
      (canvas.under point).getLast?.map DiagramNode.id := by
    have deepest : (canvas.under point).foldl Diagram.deeper none =
        (canvas.under point).getLast?.or none := descends.foldl_deeper (by simp)
    rw [Option.or_none] at deepest
    rw [hit?, Diagram.innermostAt?_eq]
    exact congrArg _ deepest
  refine ⟨?_, descends.isChain, isHit, ?_, ?_⟩
  · intro node isHead
    have nodeIn := List.mem_of_mem_head? isHead
    have noParent := descends.head node isHead
    exact ⟨isRoot node (List.mem_of_mem_filter nodeIn) noParent, noParent⟩
  · rw [isHit, Option.map_eq_none_iff, List.getLast?_eq_none_iff]
  · intro node isLast child isChild
    obtain ⟨childIn, ofNode⟩ := List.mem_filter.mp isChild
    by_contra isAround
    have childUnder : child ∈ canvas.under point :=
      List.mem_filter.mpr ⟨childIn, by simpa using isAround⟩
    refine descends.parent_ne_last ?_ childUnder isLast (by simpa using ofNode)
    exact distinct.sublist (List.filter_sublist.map DiagramNode.id)

end Canvas

namespace Diagram

variable {settings : LayoutSettings Rat}

/-- Marking a diagram moves nothing. -/
theorem around_markReachable {α : Type} [Scalar α] (diagram : Diagram α)
    (starts : List NodeId) (point : Point α) :
    (diagram.markReachable starts).around point =
      (diagram.around point).map (diagram.marked starts) :=
  List.filter_map

theorem descends_around (accepted : settings.Accepted)
    (program : Program (Label Rat)) (starts : List NodeId) (point : Point Rat) :
    Descends none 0 (((unmarked (program.framed settings)).markReachable
      starts).around point) := by
  rw [around_markReachable]
  have positive : 0 < settings.nearest :=
    lt_min accepted.spacing_pos accepted.branchGap_pos
  have descends : Descends none 0
      ((unmarked (program.framed settings)).around point) :=
    Arrangement.descends_around (program.fits_framed accepted)
      (program.spaced_preorder accepted) positive .origin none 0
  exact descends.map _ (fun _ => rfl) (fun _ => rfl) fun _ => rfl

end Diagram

/-- Whatever view is opened on the layout of a tree that passes validation, a point
of the screen hits the innermost node under it. -/
theorem Tree.layout_hitsInnermost {settings : LayoutSettings Rat} {tree : Tree Rat}
    (usable : settings.validate = .ok ())
    (valid : tree.validate settings.maxDepth = .ok ()) :
    ∃ diagram, tree.layout settings = .ok diagram ∧
      ∀ canvas : Canvas Rat, canvas.snapshot.diagram.toDiagram = diagram →
        ∀ point, canvas.HitsInnermost point := by
  have accepted := LayoutSettings.validate_accepted usable
  obtain ⟨program, stores⟩ := exists_stores valid
  refine ⟨_, layout_exact accepted valid stores, fun canvas isShown point => ?_⟩
  apply Canvas.hitsInnermost_of_descends
  · rw [Canvas.under, isShown]
    exact Diagram.descends_around accepted _ _ _
  · have ids_eq : (Diagram.unmarked (program.written.framed settings)).nodes.map
        DiagramNode.id = program.written.ids :=
      (Arrangement.ids_place .origin none 0 _).trans (Program.ids_framed _)
    rw [isShown, Diagram.ids_markReachable, ids_eq]
    exact stores.ids_nodup
  · rw [isShown]
    intro node nodeIn noParent
    obtain ⟨plain, plainIn, rfl⟩ := List.mem_map.mp nodeIn
    have isRoot : plain.id = (program.written.framed settings).label.id :=
      Arrangement.id_of_parent_none plainIn noParent
    exact isRoot

/-- A function with a loop in it. -/
def loopingFunction : Program NodeId :=
  .container "main" .function
    (.loop "loop" .whileHolds (.statement "work" .expression))

theorem Tree.layout_hitsInnermost_loopingFunction :
    (LayoutSettings.standard : LayoutSettings Rat).validate = .ok () ∧
      loopingFunction.plainTree.validate
        (LayoutSettings.standard : LayoutSettings Rat).maxDepth = .ok () ∧
      ∃ diagram, loopingFunction.plainTree.layout .standard = .ok diagram ∧
        ∀ canvas : Canvas Rat, canvas.snapshot.diagram.toDiagram = diagram →
          ∀ point, canvas.HitsInnermost point := by
  have usable : (LayoutSettings.standard : LayoutSettings Rat).validate =
      .ok () := by
    decide +kernel
  have valid : loopingFunction.plainTree.validate
      (LayoutSettings.standard : LayoutSettings Rat).maxDepth = .ok () := by
    cbv
  exact ⟨usable, valid, layout_hitsInnermost usable valid⟩

end Flowchart
