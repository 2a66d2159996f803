import Flowchart.Proofs.Flow.Begin
import Flowchart.Proofs.Layout.Drawn

/-!
# Endpoints of edges

Every edge of a program connects anchors that its two nodes have, so that the
check of the endpoints never fails.  It leaves an anchor that suits its kind.
-/

namespace Flowchart

/-- A connector of this kind goes down a lane only from the anchor that the kind
is named for. -/
structure ConnectorKind.Suits (kind : ConnectorKind) (source : Anchor) :
    Prop where
  loopExit : kind = .loopExit → source = .loopExit
  branchFalse : kind = .branchFalse → source = .branchFalse

theorem ConnectorKind.Suits.of_straight {kind : ConnectorKind}
    (straight : kind.isLateral = false) (source : Anchor) :
    kind.Suits source := by
  constructor <;> rintro rfl <;> cases straight

theorem ConnectorKind.Suits.loop : ConnectorKind.loopExit.Suits .loopExit :=
  ⟨fun _ => rfl, nofun⟩

theorem ConnectorKind.Suits.decision :
    ConnectorKind.branchFalse.Suits .branchFalse :=
  ⟨nofun, fun _ => rfl⟩

/-- Flow that is named for where it goes is not lateral. -/
theorem OpenExit.suits_kindTo {kind : ConnectorKind} {source : Anchor}
    (suits : kind.Suits source) (target : Endpoint) (tag : Tag) :
    (OpenExit.kindTo kind target tag).Suits source := by
  unfold OpenExit.kindTo
  split
  · exact .of_straight rfl source
  · exact .of_straight rfl source
  · exact suits

/-- An exit at a place of one kind, by a connector that suits the place. -/
structure OpenExit.Leaves (valid : Endpoint → Prop) (exit : OpenExit) :
    Prop where
  source : valid exit.source
  suits : exit.kind.Suits exit.source.anchor

/-- An edge between places of one kind, by a connector that suits the first. -/
structure Edge.Joins (valid : Endpoint → Prop) (edge : Edge) : Prop where
  source : valid edge.source
  suits : edge.kind.Suits edge.source.anchor
  target : valid edge.target

namespace OpenExit.Leaves

variable {valid : Endpoint → Prop} {exit : OpenExit}

theorem connect (leaves : exit.Leaves valid) {target : Endpoint}
    (isValid : valid target) (tag : Tag) : (exit.connect target tag).Joins valid :=
  ⟨leaves.source, suits_kindTo leaves.suits target tag, isValid⟩

theorem connectTo (leaves : exit.Leaves valid) {entry : Option (Endpoint × Tag)}
    (target : ∀ found, entry = some found → valid found.1) :
    ∀ edge ∈ exit.connectTo entry, edge.Joins valid := by
  intro edge edgeIn
  cases entry with
  | none => cases edgeIn
  | some entry =>
      rw [List.mem_singleton.mp edgeIn]
      exact leaves.connect (target entry rfl) entry.2

end OpenExit.Leaves

namespace Wiring

/-- All places that a wiring tells of are of one kind. -/
structure Within (valid : Endpoint → Prop) (wiring : Wiring) : Prop where
  edges : ∀ edge ∈ wiring.edges, valid edge.source ∧ valid edge.target
  entry : ∀ entry, wiring.entry = some entry → valid entry.1
  exits : ∀ exit ∈ wiring.exits, valid exit.source

/-- All edges of a wiring join places of one kind, and flow enters and leaves it
at such places. -/
structure Joins (valid : Endpoint → Prop) (wiring : Wiring) : Prop where
  edges : ∀ edge ∈ wiring.edges, edge.Joins valid
  entry : ∀ entry, wiring.entry = some entry → valid entry.1
  exits : ∀ exit ∈ wiring.exits, exit.Leaves valid

namespace Joins

variable {valid other : Endpoint → Prop} {first next body : Wiring} {id : NodeId}
  {tag : Tag}

theorem within (joins : Joins valid first) : Within valid first :=
  ⟨fun edge edgeIn =>
      ⟨(joins.edges edge edgeIn).source, (joins.edges edge edgeIn).target⟩,
    joins.entry, fun exit exitIn => (joins.exits exit exitIn).source⟩

theorem imp (joins : Joins valid first)
    (implies : ∀ endpoint, valid endpoint → other endpoint) :
    Joins other first where
  edges := fun edge edgeIn =>
    have ⟨source, suits, target⟩ := joins.edges edge edgeIn
    ⟨implies _ source, suits, implies _ target⟩
  entry := fun entry isEntry => implies _ (joins.entry entry isEntry)
  exits := fun exit exitIn =>
    have ⟨source, suits⟩ := joins.exits exit exitIn
    ⟨implies _ source, suits⟩

theorem nothing (starts : List NodeId) :
    Joins valid { Wiring.nothing with starts } :=
  ⟨List.forall_mem_nil _, nofun, List.forall_mem_nil _⟩

theorem enclosed (joins : Joins valid first) : Joins valid first.enclosed :=
  ⟨joins.edges, nofun, List.forall_mem_nil _⟩

theorem startingAtEntry (joins : Joins valid first) :
    Joins valid first.startingAtEntry :=
  ⟨joins.edges, nofun, List.forall_mem_nil _⟩

theorem ending (tag : Tag) (isEntry : valid ⟨id, .entry⟩) :
    Joins valid { Wiring.passing id tag with exits := [] } := by
  refine ⟨List.forall_mem_nil _, ?_, List.forall_mem_nil _⟩
  rintro _ ⟨⟩
  exact isEntry

theorem passing (isEntry : valid ⟨id, .entry⟩) (isExit : valid ⟨id, .exit⟩) :
    Joins valid (.passing id tag) where
  edges := List.forall_mem_nil _
  entry := (ending tag isEntry).entry
  exits := List.forall_mem_singleton.mpr ⟨isExit, .of_straight rfl _⟩

/-! ### Constructs one after the other -/

theorem followedBy (firstJoins : Joins valid first) (nextJoins : Joins valid next) :
    Joins valid (first.followedBy next) where
  edges := by
    intro edge edgeIn
    rcases Conducts.mem_followedBy_edges.mp edgeIn with inFirst | inNext |
      ⟨exit, exitIn, connects⟩
    · exact firstJoins.edges edge inFirst
    · exact nextJoins.edges edge inNext
    · exact (firstJoins.exits exit exitIn).connectTo nextJoins.entry edge connects
  entry := by
    intro entry isEntry
    rcases Option.or_eq_some_iff.mp isEntry with isFirst | ⟨-, isNext⟩
    · exact firstJoins.entry entry isFirst
    · exact nextJoins.entry entry isNext
  exits := by
    intro exit exitIn
    rcases List.mem_append.mp exitIn with inFirst | inNext
    · split at inFirst
      · cases inFirst
      · exact firstJoins.exits exit inFirst
    · exact nextJoins.exits exit inNext

theorem chain {members : List Wiring} (each : ∀ member ∈ members, Joins valid member) :
    Joins valid (Wiring.chain members) :=
  List.foldlRecOn members _ (nothing []) fun _ beforeJoins member memberIn =>
    beforeJoins.followedBy (each member memberIn)

theorem beside (firstJoins : Joins valid first) (nextJoins : Joins valid next) :
    Joins valid (first.beside next) :=
  ⟨List.forall_mem_append.mpr ⟨firstJoins.edges, nextJoins.edges⟩, nofun,
    List.forall_mem_nil _⟩

theorem separate {members : List (Tag × NodeId × Wiring)}
    (each : ∀ member ∈ members, Joins valid member.2.2) :
    Joins valid (Wiring.separate members) :=
  List.foldlRecOn members _ (nothing []) fun _ beforeJoins member memberIn =>
    (beforeJoins.beside (nothing _)).beside (each member memberIn).startingAtEntry

theorem runs {before : Wiring} {run : List Wiring}
    {members : List (Tag × NodeId × Wiring)} (beforeJoins : Joins valid before)
    (runJoins : ∀ member ∈ run, Joins valid member)
    (each : ∀ member ∈ members, Joins valid member.2.2) :
    Joins valid (Wiring.runs before run members) := by
  induction members generalizing before run with
  | nil => exact beforeJoins.beside (chain runJoins).startingAtEntry
  | cons member rest ih =>
      obtain ⟨memberJoins, restJoins⟩ := List.forall_mem_cons.mp each
      rw [Wiring.runs]
      -- A declaration ends the run before it, any other member goes on with it.
      split
      · exact ih (((beforeJoins.beside (chain runJoins).startingAtEntry).beside
          (nothing _)).beside memberJoins.enclosed) (List.forall_mem_nil _) restJoins
      · exact ih beforeJoins (List.forall_mem_append.mpr
          ⟨runJoins, List.forall_mem_singleton.mpr memberJoins⟩) restJoins

/-! ### Constructs with branches -/

/-- A branch between where flow comes into it and where all of its exits lead. -/
theorem between (joins : Joins valid body) {branch : OpenExit}
    (leaves : branch.Leaves valid) (tag : Tag) {target : Endpoint}
    (isValid : valid target) :
    ∀ edge ∈ body.edges ++ branch.connectTo body.entry ++ body.close target tag,
      edge.Joins valid := by
  intro edge edgeIn
  rw [List.mem_append, List.mem_append] at edgeIn
  rcases edgeIn with (inner | enters) | closes
  · exact joins.edges edge inner
  · exact leaves.connectTo joins.entry edge enters
  · obtain ⟨exit, exitIn, rfl⟩ := List.mem_map.mp closes
    exact (joins.exits exit exitIn).connect isValid tag

theorem merging {edges : List Edge} {starts : List NodeId} {merged : Bool}
    (joins : ∀ edge ∈ edges, edge.Joins valid) (isEntry : valid ⟨id, .entry⟩)
    (isMerge : valid ⟨id, .merge⟩) :
    Joins valid (.merging id tag edges starts merged) where
  edges := joins
  entry := (ending tag isEntry).entry
  exits := by
    intro exit exitIn
    cases merged with
    | false => cases exitIn
    | true =>
        rw [List.mem_singleton.mp exitIn]
        exact ⟨isMerge, .of_straight rfl _⟩

theorem decision {consequent : Wiring} {alternative : Option Wiring}
    (own : ∀ anchor ∈ [.entry, .branchTrue, .branchFalse, .merge],
      valid ⟨id, anchor⟩)
    (first : Joins valid consequent)
    (second : ∀ wiring ∈ alternative, Joins valid wiring) :
    Joins valid (.decision id consequent alternative) := by
  have isMerge : valid ⟨id, .merge⟩ := own _ (by decide)
  have whenTrue : OpenExit.Leaves valid
      ⟨⟨id, .branchTrue⟩, .branchTrue, some "true"⟩ :=
    ⟨own _ (by decide), .of_straight rfl _⟩
  have whenFalse : OpenExit.Leaves valid
      ⟨⟨id, .branchFalse⟩, .branchFalse, some "false"⟩ :=
    ⟨own _ (by decide), .decision⟩
  have inFirst := first.between whenTrue .decision isMerge
  cases alternative with
  | none =>
      exact .merging (List.forall_mem_append.mpr ⟨inFirst,
        List.forall_mem_singleton.mpr (whenFalse.connect isMerge .decision)⟩)
        (own _ (by decide)) isMerge
  | some alternative =>
      exact .merging (List.forall_mem_append.mpr ⟨inFirst,
        (second alternative rfl).between whenFalse .decision isMerge⟩)
        (own _ (by decide)) isMerge

theorem selection {arms : List (String × Wiring)}
    (own : ∀ anchor ∈ .entry :: (List.range arms.length).map .arm ++ [.merge],
      valid ⟨id, anchor⟩)
    (each : ∀ arm ∈ arms, Joins valid arm.2) :
    Joins valid (.selection id arms) := by
  have isMerge : valid ⟨id, .merge⟩ := own _ (by simp)
  refine .merging (fun edge edgeIn => ?_) (own _ (by simp)) isMerge
  obtain ⟨edges, edgesIn, edgeIn⟩ := List.mem_flatten.mp edgeIn
  obtain ⟨index, inside, rfl⟩ := List.mem_mapIdx.mp edgesIn
  exact (each _ (List.getElem_mem inside)).between
    ⟨own _ (by simpa using inside), .of_straight rfl _⟩ _ isMerge edge edgeIn

theorem loop {kind : LoopKind}
    (own : ∀ anchor ∈ [.entry, .branchTrue, .loopBack, .loopExit],
      valid ⟨id, anchor⟩)
    (joins : Joins valid body) : Joins valid (.loop id kind body) where
  edges := joins.between ⟨own _ (by decide), .of_straight rfl _⟩ _
    (own _ (by decide))
  entry := (ending (.loop kind) (own _ (by decide))).entry
  exits := List.forall_mem_singleton.mpr ⟨own _ (by decide), .loop⟩

theorem function (isStart : valid ⟨id, .start⟩) (isExit : valid ⟨id, .exit⟩)
    (joins : Joins valid body) : Joins valid (.function id body) :=
  ⟨joins.between ⟨isStart, .of_straight rfl _⟩ _ isExit, nofun,
    List.forall_mem_nil _⟩

end Joins

end Wiring

namespace Program

/-- The anchors that the node of a construct has. -/
def anchors {L : Type} : Program L → List Anchor
  | .statement _ _ | .typeDefinition _ | .block _ _ => [.entry, .exit]
  | .result _ => [.entry]
  | .decision _ _ _ => [.entry, .branchTrue, .branchFalse, .merge]
  | .selection _ arms =>
      .entry :: (List.range arms.length).map .arm ++ [.merge]
  | .loop _ _ _ => [.entry, .branchTrue, .loopBack, .loopExit]
  | .container _ .function _ => [.start, .exit]
  | .container _ .service _ => []

/-- An endpoint is an anchor of a node of the program. -/
def HasAnchor (program : Program NodeId) (endpoint : Endpoint) : Prop :=
  ∃ node ∈ program.preorder, node.label = endpoint.node ∧
    endpoint.anchor ∈ node.anchors

theorem HasAnchor.of_child {program child : Program NodeId}
    {endpoint : Endpoint} (childIn : child ∈ program.children)
    (hasAnchor : child.HasAnchor endpoint) : program.HasAnchor endpoint := by
  obtain ⟨node, nodeIn, sameNode, anchorIn⟩ := hasAnchor
  exact ⟨node, mem_preorder_of_child childIn nodeIn, sameNode, anchorIn⟩

theorem hasAnchor_self {program : Program NodeId} {anchor : Anchor}
    (anchorIn : anchor ∈ program.anchors) :
    program.HasAnchor ⟨program.label, anchor⟩ :=
  ⟨program, self_mem_preorder _, rfl, anchorIn⟩

theorem joins_block {valid : Endpoint → Prop} {label : NodeId}
    {members : List (Program NodeId)} (inService : Bool)
    (isEntry : valid ⟨label, .entry⟩) (isExit : valid ⟨label, .exit⟩)
    (each : ∀ member ∈ members, Wiring.Joins valid (member.wire false)) :
    Wiring.Joins valid ((block label members).wire inService) := by
  by_cases filled : members = []
  · subst filled
    exact .passing isEntry isExit
  · have eachListed : ∀ listed ∈ wireMembers members,
        Wiring.Joins valid listed.2.2 := by
      rw [wireMembers_eq]
      exact List.forall_mem_map.mpr each
    rw [wire_block inService label filled]
    split
    · exact .separate eachListed
    · split
      · exact .runs (.nothing []) (List.forall_mem_nil _) eachListed
      · exact .chain (List.forall_mem_map.mpr each)

/-- The edges of a program join anchors of its nodes. -/
theorem wire_joins (program : Program NodeId) (inService : Bool) :
    Wiring.Joins program.HasAnchor (program.wire inService) := by
  have inChild : ∀ {program child : Program NodeId} {wiring : Wiring},
      child ∈ program.children → Wiring.Joins child.HasAnchor wiring →
      Wiring.Joins program.HasAnchor wiring :=
    fun childIn joins => joins.imp fun _ => HasAnchor.of_child childIn
  induction program generalizing inService with
  | statement label kind =>
      exact .passing (hasAnchor_self (by simp [anchors]))
        (hasAnchor_self (by simp [anchors]))
  | result label => exact .ending _ (hasAnchor_self (by simp [anchors]))
  | typeDefinition label => exact .nothing []
  | block label members ih =>
      exact joins_block inService (hasAnchor_self (by simp [anchors]))
        (hasAnchor_self (by simp [anchors])) fun member memberIn =>
          inChild memberIn (ih member memberIn false)
  | decision label consequent ih =>
      exact .decision (fun _ anchorIn => hasAnchor_self anchorIn)
        (inChild (by simp [children]) (ih false)) nofun
  | choice label consequent alternative ih₁ ih₂ =>
      refine .decision (fun _ anchorIn => hasAnchor_self anchorIn)
        (inChild (by simp [children]) (ih₁ false)) ?_
      rintro _ ⟨⟩
      exact inChild (by simp [children]) (ih₂ false)
  | selection label arms ih =>
      rw [wire, wireArms_eq]
      refine .selection ?_ (List.forall_mem_map.mpr fun arm armIn =>
        inChild (List.mem_map_of_mem armIn) (ih arm armIn false))
      rw [List.length_map]
      exact fun _ anchorIn => hasAnchor_self anchorIn
  | loop label kind body ih =>
      exact .loop (fun _ anchorIn => hasAnchor_self anchorIn)
        (inChild (by simp [children]) (ih false))
  | container label kind body ih =>
      have joins : ∀ inService,
          Wiring.Joins (container label kind body).HasAnchor
            (body.wire inService) :=
        fun inService => inChild (by simp [children]) (ih inService)
      cases kind with
      | service => exact (joins true).enclosed
      | function =>
          exact .function (hasAnchor_self (by simp [anchors]))
            (hasAnchor_self (by simp [anchors])) (joins false)

/-- All places in the wiring of a program are anchors of its nodes. -/
theorem wire_within (program : Program NodeId) (inService : Bool) :
    Wiring.Within program.HasAnchor (program.wire inService) :=
  (program.wire_joins inService).within

/-! ## Anchors in the diagram -/

variable {α : Type} [Scalar α] {settings : LayoutSettings α}
  {program : Program (Label α)}

variable (settings) in
theorem anchors_framed (program : Program (Label α)) :
    (program.framed settings).label.anchors.map Prod.fst = program.anchors := by
  cases program with
  | block label members => cases members <;> rfl
  | decision label consequent alternative => cases alternative <;> rfl
  | selection label arms =>
      simp [framed, framedArms_eq, Program.label, Frame.selection, anchors,
        Function.comp_def]
  | container label kind body => cases kind <;> rfl
  | _ => rfl

theorem anchors_map {L M : Type} (change : L → M) (program : Program L) :
    (program.map change).anchors = program.anchors := by
  cases program with
  | decision label consequent alternative => cases alternative <;> rfl
  | selection label arms => simp [map, mapArms_eq, anchors]
  | container label kind body => cases kind <;> rfl
  | _ => rfl

variable (settings) in
/-- An endpoint of the program is found in the plane. -/
theorem HasAnchor.exists_anchor {endpoint : Endpoint}
    (hasAnchor : (program.map Label.id).HasAnchor endpoint) :
    ∃ node point,
      node ∈ (program.framed settings).place .origin none 0 ∧
      node.id = endpoint.node ∧
      node.anchor? endpoint.anchor = some point := by
  obtain ⟨node, nodeIn, isNode, anchorIn⟩ := hasAnchor
  rw [preorder_map] at nodeIn
  obtain ⟨shown, shownIn, rfl⟩ := List.mem_map.mp nodeIn
  have framedIn : shown.framed settings ∈ (program.framed settings).preorder := by
    rw [preorder_framed]
    exact List.mem_map_of_mem shownIn
  obtain ⟨above, stands⟩ := Stands.of_mem_preorder framedIn
  obtain ⟨corner, placed⟩ :=
    Arrangement.exists_mem_place stands .origin none 0
  rw [anchors_map, ← anchors_framed settings] at anchorIn
  obtain ⟨⟨anchor, point⟩, pairIn, isAnchor⟩ := List.mem_map.mp anchorIn
  have isSome : (List.lookup endpoint.anchor
      ((shown.framed settings).label.anchors.map fun entry =>
        (entry.1, entry.2 + corner))).isSome = true := by
    rw [List.lookup_isSome_iff]
    exact ⟨(anchor, point + corner), List.mem_map.mpr ⟨_, pairIn, rfl⟩,
      by simpa using isAnchor.symm⟩
  obtain ⟨found, isFound⟩ := Option.isSome_iff_exists.mp isSome
  refine ⟨_, found, placed, ?_, isFound⟩
  rw [← isNode, label_map]
  exact id_framed settings shown

/-- The check of endpoints passes. -/
theorem HasAnchor.checkEndpoint {endpoint : Endpoint}
    (distinct : program.ids.Nodup)
    (hasAnchor : (program.map Label.id).HasAnchor endpoint) :
    Diagram.checkEndpoint
      (Diagram.unmarked (program.framed settings)).nodes endpoint = .ok () := by
  obtain ⟨node, point, placed, isNode, isAnchor⟩ :=
    hasAnchor.exists_anchor settings
  have found : Keyed.find? DiagramNode.id
      ((program.framed settings).place .origin none 0) endpoint.node =
      some node := by
    rw [← isNode]
    exact Keyed.find?_eq_some
      (by rwa [Arrangement.ids_place, ids_framed]) placed
  simp [Diagram.checkEndpoint, Diagram.unmarked, found, isAnchor]

/-- A program has a diagram, unless its measures are unusable or siblings
overlap. -/
theorem diagram_eq (distinct : program.ids.Nodup) :
    program.diagram settings =
      settle
        ((Arrangement.fault? (program.framed settings)).or
          ((Arrangement.overlap? .origin (program.framed settings)).map
            fun pair => .siblingOverlap pair.1 pair.2))
        ((Diagram.unmarked (program.framed settings)).markReachable
          (program.map Label.id).flow.2) := by
  have checked : (Diagram.unmarked (program.framed settings)).edges.forM
      (fun edge => do
        Diagram.checkEndpoint
          (Diagram.unmarked (program.framed settings)).nodes edge.source
        Diagram.checkEndpoint
          (Diagram.unmarked (program.framed settings)).nodes edge.target) =
      .ok () := by
    refine forM_eq_ok fun edge edgeIn => ?_
    rw [Diagram.unmarked, map_framed] at edgeIn
    obtain ⟨source, target⟩ :=
      (wire_within (program.map Label.id) false).edges edge edgeIn
    rw [source.checkEndpoint distinct, target.checkEndpoint distinct]
    rfl
  rw [diagram, arrange]
  cases Arrangement.fault? (program.framed settings) with
  | some fault => rfl
  | none =>
      change Diagram.ofArrangement (program.framed settings) = _
      rw [Diagram.ofArrangement_eq (by rwa [ids_framed]), checked, map_framed]
      cases Arrangement.overlap? .origin (program.framed settings) <;> rfl

end Program

end Flowchart
