import Flowchart.Proofs.Flow.Frames
import Flowchart.Proofs.Layout.Moved

/-!
# Flow along spines

Flow enters a construct at the top of its spine and, unless it leaves a loop, comes
out at the bottom of it.  The members of a block share one spine, and so does a node
with the first construct below its figure.  So an edge that leads on to a construct
leads straight down, by one gap.
-/

namespace Flowchart

open Scalar

/-- One of the nodes has this endpoint, and it lies at the point. -/
def Endpoint.LiesAt (nodes : List (DiagramNode Rat)) (endpoint : Endpoint)
    (point : Point Rat) : Prop :=
  ∃ node ∈ nodes, node.id = endpoint.node ∧
    node.anchor? endpoint.anchor = some point

theorem Endpoint.LiesAt.mono {nodes more : List (DiagramNode Rat)}
    {endpoint : Endpoint} {point : Point Rat} (liesAt : endpoint.LiesAt nodes point)
    (subset : nodes ⊆ more) : endpoint.LiesAt more point := by
  obtain ⟨node, nodeIn, isNode, isPoint⟩ := liesAt
  exact ⟨node, subset nodeIn, isNode, isPoint⟩

/-- The target of an edge lies straight below its source, by the gap. -/
def Edge.Drops (gap : Rat) (nodes : List (DiagramNode Rat)) (edge : Edge) : Prop :=
  ∃ start, edge.source.LiesAt nodes start ∧
    edge.target.LiesAt nodes ⟨start.x, start.y + gap⟩

theorem Edge.Drops.mono {gap : Rat} {nodes more : List (DiagramNode Rat)}
    {edge : Edge} (drops : edge.Drops gap nodes) (subset : nodes ⊆ more) :
    edge.Drops gap more := by
  obtain ⟨start, fromStart, toFinish⟩ := drops
  exact ⟨start, fromStart.mono subset, toFinish.mono subset⟩

/-- An edge leads on to a construct, and neither aside into a branch nor out of a
loop. -/
structure Edge.LeadsOn (edge : Edge) : Prop where
  enters : edge.target.anchor = .entry
  notFalse : edge.kind ≠ .branchFalse
  notArm : ∀ index, edge.kind ≠ .branchArm index
  notOut : edge.kind ≠ .loopExit

theorem Arrangement.liesAt_own {arrangement : Arrangement Rat} {anchor : Anchor}
    {x y : Rat} (isAnchor : arrangement.label.anchors.lookup anchor = some ⟨x, y⟩)
    (corner : Point Rat) (outer : Option NodeId) (level : Nat) :
    Endpoint.LiesAt (place corner outer level arrangement)
      ⟨arrangement.label.id, anchor⟩ ⟨corner.x + x, corner.y + y⟩ :=
  ⟨_, self_mem_place corner outer level arrangement, rfl, anchor?_nodeAt isAnchor⟩

namespace Frame

variable {settings : LayoutSettings Rat} {size : Size Rat}

/-- The first child of a decision lies on its spine, a gap below the figure. -/
theorem offset_decision {consequent : Frame Rat} {alternative : Option (Frame Rat)}
    (label : Label Rat) :
    (decision label size settings consequent alternative).offset 0 =
      ⟨(decision label size settings consequent alternative).spine -
          consequent.spine,
        (figureOn (decision label size settings consequent alternative).spine 0
          size).maxY + settings.statementSpacing⟩ := by
  rw [decision_offset, figureOn_exact, decision_spine, zero_add]

theorem offset_loop {body : Frame Rat} (label : Label Rat) :
    (loop label size settings body).offset 0 =
      ⟨(loop label size settings body).spine - body.spine,
        (figureOn (loop label size settings body).spine 0 size).maxY +
          settings.statementSpacing⟩ := by
  rw [loop_offset, figureOn_exact, zero_add]

theorem offset_container {body : Frame Rat} (label : Label Rat)
    (kind : ContainerKind) :
    (container label size settings kind body).offset 0 =
      ⟨(container label size settings kind body).spine - body.spine,
        (figureOn (container label size settings kind body).spine
          settings.padding.top size).maxY + settings.statementSpacing⟩ := by
  rw [container_offset, figureOn_exact]

end Frame

namespace Program

variable {settings : LayoutSettings Rat} {program child : Program (Label Rat)}

/-! ## The ends of a spine -/

/-- Flow can enter a node at the top of its spine only. -/
theorem lookup_entry {place : Point Rat}
    (isPlace : (program.framed settings).label.anchors.lookup .entry = some place) :
    place = ⟨(program.framed settings).label.spine, 0⟩ := by
  cases program with
  | block label members => cases members <;> exact (Option.some.inj isPlace).symm
  | decision label consequent alternative =>
      cases alternative <;> exact (Option.some.inj isPlace).symm
  | container label kind body => cases kind <;> cases isPlace
  | _ => exact (Option.some.inj isPlace).symm

variable (settings) in
/-- Flow comes out of a node at the bottom of its spine. -/
theorem lookup_outlet (hasNode : program.isFilledBlock = false) {source : Endpoint}
    (isOutlet : (program.map Label.id).outlet = some source)
    (notOut : source.anchor ≠ .loopExit) :
    source.node = program.label.id ∧
      (program.framed settings).label.anchors.lookup source.anchor =
        some ⟨(program.framed settings).label.spine,
          (program.framed settings).label.size.height⟩ := by
  cases program with
  | statement label kind =>
      cases isOutlet
      exact ⟨rfl, rfl⟩
  | block label members =>
      cases members with
      | nil =>
          cases isOutlet
          exact ⟨rfl, rfl⟩
      | cons first later => cases hasNode
  | decision label consequent alternative =>
      cases alternative with
      | none =>
          cases isOutlet
          exact ⟨rfl, rfl⟩
      | some alternative =>
          rw [map, outlet] at isOutlet
          split at isOutlet
          · cases isOutlet
            exact ⟨rfl, rfl⟩
          · cases isOutlet
  | selection label arms =>
      rw [map, outlet] at isOutlet
      split at isOutlet
      · cases isOutlet
        exact ⟨rfl, Channel.lookup_merge _⟩
      · cases isOutlet
  | loop label kind body =>
      cases isOutlet
      exact absurd rfl notOut
  | _ => cases isOutlet

/-! ## Constructs on one line -/

theorem getElem?_children_framed {index : Nat}
    (isChild : program.children[index]? = some child) :
    (program.framed settings).children[index]? = some (child.framed settings) := by
  rw [children_framed, List.getElem?_map, isChild, Option.map_some]

section Block

variable {label : Label Rat} {members : List (Program (Label Rat))} {index : Nat}
  {member : Program (Label Rat)} (isMember : members[index]? = some member)

include isMember

variable (settings label) in
theorem getElem?_block_framed :
    ((block label members).framed settings).children[index]? =
      some (member.framed settings) := by
  rw [children_framed, children, List.getElem?_map, isMember, Option.map_some]

theorem line_member (corner : Point Rat) :
    (Arrangement.childOrigin corner ((block label members).framed settings).label
        index).x + (member.framed settings).label.spine =
      corner.x + ((block label members).framed settings).label.spine := by
  have filled : members ≠ [] := List.ne_nil_of_mem (List.mem_of_getElem? isMember)
  exact Arrangement.line_piece (isColumn_framed filled) corner
    (getElem?_block_framed settings label isMember)

/-- The next member starts a gap below where a member ends. -/
theorem top_next {next : Program (Label Rat)}
    (isNext : members[index + 1]? = some next) (corner : Point Rat) :
    (Arrangement.childOrigin corner ((block label members).framed settings).label
        (index + 1)).y =
      (Arrangement.childOrigin corner ((block label members).framed settings).label
        index).y + (member.framed settings).label.size.height +
          settings.statementSpacing := by
  have filled : members ≠ [] := List.ne_nil_of_mem (List.mem_of_getElem? isMember)
  have isColumn : ((block label members).framed settings).label = _ :=
    isColumn_framed filled
  have next_eq := Frame.column_next label settings.statementSpacing
    (Arrangement.frame_getElem? (getElem?_block_framed settings label isMember))
    (Arrangement.frame_getElem? (getElem?_block_framed settings label isNext))
  rw [← isColumn] at next_eq
  rw [Arrangement.childOrigin_eq, Arrangement.childOrigin_eq, Point.add_y,
    Point.add_y]
  linarith

end Block

variable (accepted : settings.Accepted)

include accepted

/-- The last member of a block ends where the block does. -/
theorem bottom_last {label : Label Rat} (before : List (Program (Label Rat)))
    (last : Program (Label Rat)) (corner : Point Rat) :
    (Arrangement.childOrigin corner
        ((block label (before ++ [last])).framed settings).label before.length).y +
        (last.framed settings).label.size.height =
      corner.y +
        ((block label (before ++ [last])).framed settings).label.size.height := by
  have length_eq : ((block label (before ++ [last])).framed settings).children.length
      - 1 = before.length := by
    rw [children_framed]
    simp [children]
  have isLast : ((block label (before ++ [last])).framed settings).children[
      before.length]? = some (last.framed settings) :=
    getElem?_block_framed settings label (by simp)
  rw [← length_eq] at isLast ⊢
  exact Arrangement.last_bottom (fits_framed accepted _) accepted.spacing_pos.le
    (isColumn_framed (by simp)) corner 0 isLast

/-- Flow comes to a construct at the top of its spine. -/
theorem Flowing.liesAt_entry (flowing : program.Flowing) (corner : Point Rat)
    (outer : Option NodeId) (level : Nat) :
    (program.map Label.id).entry.LiesAt
      (Arrangement.place corner outer level (program.framed settings))
      ⟨corner.x + (program.framed settings).label.spine, corner.y⟩ := by
  obtain ⟨id, tag, target, isEntry, targetIn, isTarget, isAnchor⟩ :=
    (flowing.channel accepted corner outer level).entered
  rw [wiring_framed, (flowing.map Label.id).entry_wire] at isEntry
  obtain ⟨entry_eq, -⟩ := Prod.mk.inj (Option.some.inj isEntry)
  rw [entry_eq]
  exact ⟨target, targetIn, isTarget, isAnchor⟩

/-- Flow that goes on below a construct leaves it at the bottom of its spine. -/
theorem liesAt_outlet {source : Endpoint}
    (isOutlet : (program.map Label.id).outlet = some source)
    (notOut : source.anchor ≠ .loopExit) (corner : Point Rat)
    (outer : Option NodeId) (level : Nat) :
    source.LiesAt (Arrangement.place corner outer level (program.framed settings))
      ⟨corner.x + (program.framed settings).label.spine,
        corner.y + (program.framed settings).label.size.height⟩ := by
  induction program using columnInduction generalizing corner outer level with
  | filled label members isFilled each =>
      cases members using List.reverseRecOn with
      | nil => cases isFilled
      | append_singleton before last =>
          rw [map, mapMembers_eq, List.map_append, List.map_singleton, outlet,
            lastOutlet_snoc] at isOutlet
          have isLast : (before ++ [last])[before.length]? = some last := by simp
          rw [← line_member isLast, ← bottom_last accepted]
          exact (each last (by simp) isOutlet _ _ _).mono
            (Arrangement.place_subset (getElem?_block_framed settings label isLast)
              corner outer level)
  | service label body ih => cases isOutlet
  | columns program hasNode notService each =>
      obtain ⟨isNode, isAnchor⟩ := lookup_outlet settings hasNode isOutlet notOut
      have liesAt := Arrangement.liesAt_own isAnchor corner outer level
      rw [id_framed, ← isNode] at liesAt
      exact liesAt

/-! ## Edges that lead on -/

variable (program) in
/-- An edge from the spine of a node leads down to its first child, whose spine is
on one line with it. -/
theorem drops_below (isChild : program.children[0]? = some child)
    (flowing : child.Flowing) {edge : Edge}
    (isSource : edge.source.node = program.label.id)
    (isTarget : edge.target = (child.map Label.id).entry) {bottom : Rat}
    (isAnchor : (program.framed settings).label.anchors.lookup edge.source.anchor =
      some ⟨(program.framed settings).label.spine, bottom⟩)
    (isOffset : (program.framed settings).label.offset 0 =
      ⟨(program.framed settings).label.spine - (child.framed settings).label.spine,
        bottom + settings.statementSpacing⟩)
    (corner : Point Rat) (outer : Option NodeId) (level : Nat) :
    edge.Drops settings.statementSpacing
      (Arrangement.place corner outer level (program.framed settings)) := by
  have fromStart := Arrangement.liesAt_own isAnchor corner outer level
  rw [id_framed, ← isSource] at fromStart
  have toFinish := (flowing.liesAt_entry accepted
    (Arrangement.childOrigin corner (program.framed settings).label 0)
    (some (program.framed settings).label.id) (level + 1)).mono
    (Arrangement.place_subset (getElem?_children_framed isChild) corner outer level)
  have corner_eq : Arrangement.childOrigin corner (program.framed settings).label 0 =
      ⟨corner.x + ((program.framed settings).label.spine -
        (child.framed settings).label.spine),
        corner.y + (bottom + settings.statementSpacing)⟩ := by
    rw [Arrangement.childOrigin_eq, isOffset]
    rfl
  rw [← isTarget, corner_eq, add_assoc, sub_add_cancel, ← add_assoc] at toFinish
  exact ⟨_, fromStart, toFinish⟩

/-- Edges from a node into what is below it, unless they lead aside. -/
theorem drops_entering (flowing : ∀ child ∈ program.children, child.Flowing)
    {edge : Edge} (enters : edge ∈ (program.map Label.id).enteringEdges)
    (leadsOn : edge.LeadsOn) (corner : Point Rat) (outer : Option NodeId)
    (level : Nat) :
    edge.Drops settings.statementSpacing
      (Arrangement.place corner outer level (program.framed settings)) := by
  cases program with
  | decision label consequent alternative =>
      have inside := flowing consequent (by simp [children])
      cases alternative with
      | none =>
          simp only [map, enteringEdges, List.mem_cons, List.not_mem_nil,
            or_false] at enters
          rcases enters with rfl | rfl
          · exact drops_below (.decision label consequent none) accepted rfl inside
              rfl rfl rfl (Frame.offset_decision label) corner outer level
          · exact absurd rfl leadsOn.notFalse
      | some alternative =>
          simp only [map, enteringEdges, List.mem_cons, List.not_mem_nil,
            or_false] at enters
          rcases enters with rfl | rfl
          · exact drops_below (.decision label consequent (some alternative)) accepted
              rfl inside rfl rfl rfl (Frame.offset_decision label) corner outer level
          · exact absurd rfl leadsOn.notFalse
  | selection label arms =>
      obtain ⟨index, inside, rfl⟩ := List.mem_mapIdx.mp enters
      exact absurd rfl (leadsOn.notArm index)
  | loop label kind body =>
      obtain rfl := List.mem_singleton.mp enters
      exact drops_below (.loop label kind body) accepted rfl
        (flowing body (by simp [children])) rfl rfl rfl (Frame.offset_loop label)
        corner outer level
  | container label kind body =>
      cases kind with
      | function =>
          obtain rfl := List.mem_singleton.mp enters
          exact drops_below (.container label .function body) accepted rfl
            (flowing body (by simp [children])) rfl rfl rfl
            (Frame.offset_container label .function) corner outer level
      | service => cases enters
  | _ => cases enters

/-- Flow goes on from a member of a block straight down to the next one. -/
theorem drops_next {label : Label Rat} {members : List (Program (Label Rat))}
    {index : Nat} {member next : Program (Label Rat)}
    (isMember : members[index]? = some member)
    (isNext : members[index + 1]? = some next) (flowing : next.Flowing)
    {source : Endpoint} (isOutlet : (member.map Label.id).outlet = some source)
    (leadsOn : ((next.map Label.id).goal.edgeFrom source).LeadsOn)
    (corner : Point Rat) (outer : Option NodeId) (level : Nat) :
    ((next.map Label.id).goal.edgeFrom source).Drops settings.statementSpacing
      (Arrangement.place corner outer level
        ((block label members).framed settings)) := by
  have notOut : source.anchor ≠ .loopExit := by
    intro leavesLoop
    exact leadsOn.notOut (if_pos leavesLoop)
  have fromStart := (liesAt_outlet accepted isOutlet notOut _ _ _).mono
    (Arrangement.place_subset (getElem?_block_framed settings label isMember) corner
      outer level)
  have toFinish := (flowing.liesAt_entry accepted _ _ _).mono
    (Arrangement.place_subset (getElem?_block_framed settings label isNext) corner
      outer level)
  rw [line_member isNext, ← line_member isMember, top_next isMember isNext]
    at toFinish
  exact ⟨_, fromStart, toFinish⟩

/-- Every edge of a program that leads on to a construct leads straight down. -/
theorem Arises.drops (outer : program.Outer) {edge : Edge}
    (arises : (program.map Label.id).Arises edge) (leadsOn : edge.LeadsOn)
    (corner : Point Rat) (parent : Option NodeId) (level : Nat) :
    edge.Drops settings.statementSpacing
      (Arrangement.place corner parent level (program.framed settings)) := by
  have inside : ∀ {inner : Program (Label Rat)}, inner ∈ program.preorder →
      (∀ innerCorner innerParent innerLevel, edge.Drops settings.statementSpacing
        (Arrangement.place innerCorner innerParent innerLevel
          (inner.framed settings))) →
      edge.Drops settings.statementSpacing
        (Arrangement.place corner parent level (program.framed settings)) := by
    intro inner innerIn drops
    obtain ⟨innerCorner, innerParent, innerLevel, subset⟩ :=
      exists_place_subset settings innerIn corner parent level
    exact (drops innerCorner innerParent innerLevel).mono subset
  cases arises with
  | enters nodeIn enters =>
      rw [preorder_map] at nodeIn
      obtain ⟨inner, innerIn, rfl⟩ := List.mem_map.mp nodeIn
      obtain ⟨notBlock, notService⟩ := tag_of_enters enters
      rw [tag_map] at notBlock notService
      exact inside innerIn (drops_entering accepted (fun child childIn =>
        outer.flowing_child innerIn notService childIn
          fun isBlock => absurd isBlock notBlock) enters leadsOn)
  | @goesOn id earlier later member next source blockIn plain nextPlain isOutlet =>
      rw [preorder_map] at blockIn
      obtain ⟨inner, innerIn, isBlock⟩ := List.mem_map.mp blockIn
      obtain ⟨label, members, rfl, sameMembers⟩ := exists_block_of_map isBlock
      obtain ⟨before, rest, rfl, rfl, sameRest⟩ :=
        List.map_eq_append_iff.mp sameMembers
      obtain ⟨first, others, rfl, rfl, sameOthers⟩ :=
        List.map_eq_cons_iff.mp sameRest
      obtain ⟨second, after, rfl, rfl, -⟩ := List.map_eq_cons_iff.mp sameOthers
      have flowing : second.Flowing := by
        refine outer.flowing_child innerIn nofun ?_ fun _ => ?_
        · simp [children]
        · rwa [tag_map] at nextPlain
      have isMember : (before ++ first :: second :: after)[before.length]? =
          some first := by simp
      have isNext : (before ++ first :: second :: after)[before.length + 1]? =
          some second := by simp
      exact inside innerIn
        (drops_next accepted isMember isNext flowing isOutlet leadsOn)
  | @closes node child source =>
      exact absurd leadsOn.enters node.closing_place.2

end Program

end Flowchart
