import Flowchart.Proofs.Flow.Marks
import Flowchart.Proofs.Layout.Exact

/-!
# Reachable nodes and live nodes

A node of a diagram is meant to be marked as reachable if it is live.  The two
theorems of this module say how far that goes: which marks are wrong, and when
there is none.
-/

namespace Flowchart

/-! ## Programs without results -/

namespace Program

variable {L : Type}

/-- Without results, every construct can complete. -/
theorem completes_of_no_result {program : Program L}
    (noResult : ∀ node ∈ program.preorder, node.tag ≠ .result)
    (filled : ∀ label, .selection label [] ∉ program.preorder) :
    program.completes = true := by
  have below : ∀ child ∈ program.children,
      (∀ node ∈ child.preorder, node.tag ≠ .result) ∧
        ∀ label, .selection label [] ∉ child.preorder :=
    fun child childIn =>
      ⟨fun node nodeIn => noResult node (mem_preorder_of_child childIn nodeIn),
        fun label nodeIn => filled label (mem_preorder_of_child childIn nodeIn)⟩
  induction program with
  | result label => exact absurd rfl (noResult _ (self_mem_preorder _))
  | block label members ih =>
      rw [completes_block, List.all_eq_true]
      intro member memberIn
      obtain ⟨noResultIn, filledIn⟩ := below member memberIn
      exact ih member memberIn noResultIn filledIn fun child childIn =>
        ⟨fun node nodeIn =>
            noResultIn node (mem_preorder_of_child childIn nodeIn),
          fun label nodeIn =>
            filledIn label (mem_preorder_of_child childIn nodeIn)⟩
  | choice label consequent alternative ih₁ _ =>
      have consequentIn : consequent ∈
          (decision label consequent (some alternative)).children := by
        simp [children]
      obtain ⟨noResultIn, filledIn⟩ := below consequent consequentIn
      have canComplete := ih₁ noResultIn filledIn fun child childIn =>
        ⟨fun node nodeIn =>
            noResultIn node (mem_preorder_of_child childIn nodeIn),
          fun label nodeIn =>
            filledIn label (mem_preorder_of_child childIn nodeIn)⟩
      rw [completes, comesOut, Bool.or_eq_true]
      exact .inl canComplete
  | selection label arms ih =>
      cases arms with
      | nil => exact absurd (self_mem_preorder _) (filled label)
      | cons arm rest =>
          have armIn : arm.2 ∈ (selection label (arm :: rest)).children := by
            simp [children]
          obtain ⟨noResultIn, filledIn⟩ := below arm.2 armIn
          have canComplete := ih arm List.mem_cons_self noResultIn filledIn
            fun child childIn =>
              ⟨fun node nodeIn =>
                  noResultIn node (mem_preorder_of_child childIn nodeIn),
                fun label nodeIn =>
                  filledIn label (mem_preorder_of_child childIn nodeIn)⟩
          rw [completes, comesOut, armComesOut_eq, List.any_cons,
            Bool.or_eq_true]
          exact .inl canComplete
  | _ => rfl

/-- Every service begins a flow of its own, and so does its body. -/
theorem Outer.live_of_service {goesOn : Program L → Bool} {program : Program L}
    (outer : program.Outer) (inService : Bool) {label : L} {body : Program L}
    (serviceIn : .container label .service body ∈ program.preorder) :
    Live goesOn inService program body := by
  suffices serviceLive :
      Live goesOn inService program (.container label .service body) from
    serviceLive.child (by simp [tag]) (List.mem_singleton_self _)
  have notFlowing : ∀ inner : Program L, inner.Flowing →
      .container label .service body ∉ inner.preorder :=
    fun inner flowing inInner =>
      absurd (flowing _ inInner) (by simp [tag, Tag.isDeclaration])
  induction outer generalizing inService with
  | typeDefinition own => simp [preorder] at serviceIn
  | @function own inner flowing =>
      rcases mem_preorder_iff.mp serviceIn with isRoot | ⟨child, childIn, inChild⟩
      · cases isRoot
      · rw [List.mem_singleton.mp childIn] at inChild
        exact absurd inChild (notFlowing inner flowing)
  | @service own inner _ ih =>
      rcases mem_preorder_iff.mp serviceIn with isRoot | ⟨child, childIn, inChild⟩
      · rw [isRoot]
        exact .here _ _
      · rw [List.mem_singleton.mp childIn] at inChild
        exact .inside (by simp [tag]) (List.mem_singleton_self _) (ih _ inChild)
  | @block own members declared flowing ih =>
      rcases mem_preorder_iff.mp serviceIn with isRoot | ⟨child, childIn, inChild⟩
      · cases isRoot
      · have isDeclared : child.tag.isDeclaration = true := by
          by_contra notDeclared
          exact notFlowing child
            (flowing child childIn (by simpa using notDeclared)) inChild
        obtain ⟨earlier, later, rfl⟩ := List.append_of_mem
          (show child ∈ members from childIn)
        refine .member (fun _ notDeclared => ?_)
          (ih child childIn isDeclared false inChild)
        rw [isDeclared] at notDeclared
        cases notDeclared
  | flowing flowing => exact absurd serviceIn (notFlowing _ flowing)

end Program

/-! ## The layout of a tree -/

namespace LayoutError

/-- Measures that are unusable, or siblings that overlap. -/
def IsGeometric : LayoutError → Prop
  | .inconsistent (.invalidGeometry _) | .inconsistent (.siblingOverlap _ _) =>
      True
  | _ => False

end LayoutError

namespace Tree

variable {α : Type} [Scalar α]

/-- The constructs of a tree with their identities. -/
def outline (tree : Tree α) (limit : Nat) :
    Except LayoutError (Program NodeId) :=
  (tree.program limit).map (Program.map Label.id)

/-- What is known of a tree that is accepted, and of its layout. -/
structure LaidOut (settings : LayoutSettings α) (tree : Tree α)
    (outline : Program NodeId) : Prop where
  isOutline : tree.outline settings.maxDepth = .ok outline
  outer : outline.Outer
  distinct : outline.labels.Nodup
  armed : ∀ label, .selection label [] ∉ outline.preorder
  fails : ∀ error, tree.layout settings = .error error → error.IsGeometric
  nodes : ∀ diagram, tree.layout settings = .ok diagram →
    diagram.nodes.map DiagramNode.id = outline.labels
  marked : ∀ diagram, tree.layout settings = .ok diagram →
    ∀ node ∈ diagram.nodes, (node.reachable = true ↔
      ∃ shown, shown.label = node.id ∧ outline.Reached false shown)

theorem isGeometric_of_fault {arrangement : Arrangement α} {fault : Fault}
    (found : (Arrangement.fault? arrangement).or
      ((arrangement.overlap? .origin).map fun pair =>
        .siblingOverlap pair.1 pair.2) = some fault) :
    (LayoutError.inconsistent fault).IsGeometric := by
  rcases Option.or_eq_some_iff.mp found with isFault | ⟨-, overlaps⟩
  · obtain ⟨node, -, isFault⟩ := List.exists_of_findSome?_eq_some isFault
    unfold Frame.fault? at isFault
    split at isFault
    · cases isFault
      trivial
    · cases isFault
  · obtain ⟨pair, -, rfl⟩ := Option.map_eq_some_iff.mp overlaps
    trivial

theorem exists_laidOut {settings : LayoutSettings α} {tree : Tree α}
    (accepted : tree.validate settings.maxDepth = .ok ()) :
    ∃ outline, tree.LaidOut settings outline := by
  obtain ⟨located, stores⟩ := exists_stores accepted
  have read := program_eq accepted stores
  have distinct := stores.ids_nodup
  have outer : located.written.Outer := stores.outer.map Prod.snd
  have drawn := fun (diagram : Diagram α)
    (laidOut : tree.layout settings = .ok diagram) =>
      eq_of_layout read distinct laidOut
  refine ⟨located.written.map Label.id, ?_, outer.map _, ?_, ?_, ?_, ?_, ?_⟩
  · rw [outline, read]
    rfl
  · rwa [Program.labels_map_id]
  · intro label emptyIn
    rw [Program.written, Program.map_map, Program.preorder_map] at emptyIn
    obtain ⟨node, nodeIn, isEmpty⟩ := List.mem_map.mp emptyIn
    cases node with
    | selection own arms =>
        refine stores.selection_ne_nil nodeIn ?_
        have noArms : own.2.id = label ∧ arms = [] := by
          simpa [Program.map, Program.mapArms_eq] using isEmpty
        exact noArms.2
    | decision own consequent alternative =>
        cases alternative <;> simp [Program.map] at isEmpty
    | _ => simp [Program.map] at isEmpty
  · intro error failed
    rw [layout_eq read distinct, Program.diagram_eq distinct] at failed
    cases found : (Arrangement.fault? (located.written.framed settings)).or
        ((Arrangement.overlap? .origin (located.written.framed settings)).map
          fun pair => Fault.siblingOverlap pair.1 pair.2) with
    | none =>
        rw [found] at failed
        cases failed
    | some fault =>
        rw [found] at failed
        cases failed
        exact isGeometric_of_fault found
  · intro diagram laidOut
    rw [drawn diagram laidOut, Program.labels_map_id,
      ← Program.ids_nodes settings]
    simp [Diagram.markReachable, Function.comp_def]
  · intro diagram laidOut node nodeIn
    rw [drawn diagram laidOut] at nodeIn
    obtain ⟨unmarked, -, rfl⟩ := List.mem_map.mp nodeIn
    have marks : unmarked.id ∈ _ ↔ _ :=
      Program.mem_reachedFrom_iff settings outer distinct
    rw [decide_eq_true_iff, Diagram.unmarked, Program.map_framed]
    exact marks.trans (exists_congr fun shown => and_comm)

namespace LaidOut

open Program (Live Follows Reached Stranded)

variable {settings : LayoutSettings α} {tree : Tree α}
  {outline : Program NodeId}

/-- A node of the outline is known by its identity. -/
theorem eq_of_label (laidOut : tree.LaidOut settings outline)
    {first second : Program NodeId} (firstIn : first ∈ outline.preorder)
    (secondIn : second ∈ outline.preorder)
    (same : first.label = second.label) : first = second :=
  List.inj_on_of_nodup_map laidOut.distinct firstIn secondIn same

/-- A node of the outline is shown, and marked if flow reaches it. -/
theorem exists_node (laidOut : tree.LaidOut settings outline)
    {diagram : Diagram α} (isDiagram : tree.layout settings = .ok diagram)
    {shown : Program NodeId} (shownIn : shown ∈ outline.preorder) :
    ∃ node ∈ diagram.nodes, node.id = shown.label ∧
      (node.reachable = true ↔ outline.Reached false shown) := by
  have isNode : shown.label ∈ diagram.nodes.map DiagramNode.id := by
    rw [laidOut.nodes diagram isDiagram]
    exact List.mem_map_of_mem shownIn
  obtain ⟨node, nodeIn, isShown⟩ := List.mem_map.mp isNode
  refine ⟨node, nodeIn, isShown, ?_⟩
  rw [laidOut.marked diagram isDiagram node nodeIn, isShown]
  constructor
  · rintro ⟨other, isOther, reached⟩
    rwa [← laidOut.eq_of_label reached.live.mem_preorder shownIn isOther]
  · exact fun reached => ⟨shown, rfl, reached⟩

theorem reached_iff_of_live {shown : Program NodeId}
    (live : Live Program.completes false outline shown) :
    outline.Reached false shown ↔ ¬ outline.Stranded shown :=
  ⟨fun reached => reached.notStranded, fun notStranded =>
    ⟨live.mono fun _ => Program.passes_of_completes, notStranded, by simp⟩⟩

theorem notStranded_of_filled
    (filled : ∀ label body, .container label .service body ∈ outline.preorder →
      body.isFilledBlock = true) (shown : Program NodeId) :
    ¬ outline.Stranded shown := by
  rintro ⟨label, body, serviceIn, isStranded⟩
  simp [Program.strandedPart, filled label body serviceIn] at isStranded

/-- The body of a service that is not a block with members is not marked, live
as it is. -/
theorem filled_of_marked (laidOut : tree.LaidOut settings outline)
    (marked : ∀ shown, Live Program.completes false outline shown →
      outline.Reached false shown) {label : NodeId} {body : Program NodeId}
    (serviceIn : .container label .service body ∈ outline.preorder) :
    body.isFilledBlock = true := by
  by_contra notFilled
  have live : Live Program.completes false outline body :=
    laidOut.outer.live_of_service false serviceIn
  refine (marked body live).notStranded ⟨label, body, serviceIn, ?_⟩
  rw [Program.strandedPart, if_neg notFilled]
  split
  · exact List.mem_singleton_self _
  · exact body.self_mem_preorder

end LaidOut

end Tree

open Program (Live Follows Reached Stranded)

variable {α : Type} [Scalar α]

/-- A node is marked exactly if the flow that begins in the tree reaches it.
All nodes that are marked are live exactly if, wherever flow reaches a member of
a sequence of statements, everything before it there can complete. -/
theorem marked_nodes_live_iff {settings : LayoutSettings α} {tree : Tree α}
    (accepted : tree.validate settings.maxDepth = .ok ()) :
    ∃ outline, tree.outline settings.maxDepth = .ok outline ∧
      (∀ error, tree.layout settings = .error error → error.IsGeometric) ∧
      ∀ diagram, tree.layout settings = .ok diagram →
        (∀ node ∈ diagram.nodes, (node.reachable = true ↔
          ∃ shown, shown.label = node.id ∧ outline.Reached false shown)) ∧
        ((∀ node ∈ diagram.nodes, node.reachable = true →
            ∃ shown, shown.label = node.id ∧
              Live Program.completes false outline shown) ↔
          ∀ previous member, Follows false outline previous member →
            outline.Reached false member → previous.completes = true) := by
  obtain ⟨outline, laidOut⟩ := Tree.exists_laidOut accepted
  refine ⟨outline, laidOut.isOutline, laidOut.fails, fun diagram isDiagram =>
    ⟨laidOut.marked diagram isDiagram, ?_, ?_⟩⟩
  · intro allLive previous member follows reached
    have memberIn := follows.mem_preorder
    obtain ⟨node, nodeIn, isMember, marked⟩ :=
      laidOut.exists_node isDiagram memberIn
    obtain ⟨shown, isShown, live⟩ := allLive node nodeIn (marked.mpr reached)
    obtain rfl := laidOut.eq_of_label live.mem_preorder memberIn
      (isShown.trans isMember)
    exact ((Program.live_iff laidOut.distinct).mp live).2 previous shown
      follows shown.self_mem_preorder
  · intro allComplete node nodeIn marked
    obtain ⟨shown, isShown, reached⟩ :=
      (laidOut.marked diagram isDiagram node nodeIn).mp marked
    refine ⟨shown, isShown, (Program.live_iff laidOut.distinct).mpr
      ⟨reached.live.mem_preorder, fun previous member follows inMember => ?_⟩⟩
    exact allComplete previous member follows
      (reached.of_inner laidOut.distinct follows inMember)

/-- The tree of a program in which every text is the identity. -/
def Program.plainTree (program : Program NodeId) : Tree Rat :=
  .ofProgram (program.map fun id => ⟨id, id, none⟩)

/-- Both branches of the decision end in a result, but after one of the results
comes a statement, whose exit leads to where the branches merge. -/
def deadBranch : Program NodeId :=
  .block "root"
    [.decision "if"
      (.block "then" [.result "r1", .statement "x" .expression])
      (some (.block "else" [.result "r2"])),
    .statement "dead" .expression]

theorem deadBranch_valid : deadBranch.plainTree.validate
    (LayoutSettings.standard : LayoutSettings Rat).maxDepth = .ok () := by
  cbv

theorem marked_nodes_of_deadBranch :
    deadBranch.plainTree.validate
        (LayoutSettings.standard : LayoutSettings Rat).maxDepth = .ok () ∧
      ∃ outline, deadBranch.plainTree.outline 64 = .ok outline ∧
        ∀ diagram, deadBranch.plainTree.layout .standard = .ok diagram →
          ∀ node ∈ diagram.nodes, (node.reachable = true ↔
            ∃ shown, shown.label = node.id ∧
              outline.Reached false shown) := by
  obtain ⟨outline, isOutline, -, marked⟩ :=
    marked_nodes_live_iff deadBranch_valid
  exact ⟨deadBranch_valid, outline, isOutline, fun diagram isDiagram =>
    (marked diagram isDiagram).1⟩

theorem deadBranch_reached :
    deadBranch.Reached false (.statement "dead" .expression) where
  live := by
    refine Live.block_iff.mpr (.inr ⟨[_], _, [], rfl, fun _ _ previous isPrevious =>
      ?_, .here _ _⟩)
    obtain rfl := List.mem_singleton.mp isPrevious
    cbv
  notStranded := by
    rintro ⟨label, body, serviceIn, -⟩
    simp [deadBranch, Program.preorder, Program.preorderMembers] at serviceIn
  notBody := by simp

theorem deadBranch_not_live :
    ¬ Live Program.completes false deadBranch
      (.statement "dead" .expression) := by
  intro live
  have distinct : deadBranch.labels.Nodup := by decide +kernel
  obtain ⟨-, complete⟩ := (Program.live_iff distinct).mp live
  let decision : Program NodeId := .decision "if"
    (.block "then" [.result "r1", .statement "x" .expression])
    (some (.block "else" [.result "r2"]))
  have follows : Follows false
      (.block "root" ([decision] ++ [.statement "dead" .expression]))
      decision (.statement "dead" .expression) :=
    .here rfl List.mem_cons_self
  have incomplete : decision.completes = false := by cbv
  have isComplete := complete decision _ follows (Program.self_mem_preorder _)
  rw [incomplete] at isComplete
  cases isComplete

/-- A node that is not live can be marked. -/
theorem not_all_marked_nodes_live : ∃ outline diagram,
    deadBranch.plainTree.outline 64 = .ok outline ∧
      deadBranch.plainTree.layout .standard = .ok diagram ∧
      ∃ node ∈ diagram.nodes, node.reachable = true ∧
        ¬ ∃ shown, shown.label = node.id ∧
          Live Program.completes false outline shown := by
  obtain ⟨diagram, isDiagram⟩ := Tree.exists_standard_layout deadBranch_valid
  obtain ⟨outline, laidOut⟩ := Tree.exists_laidOut deadBranch_valid
  have isOutline : deadBranch.plainTree.outline 64 = .ok deadBranch := by cbv
  obtain rfl : deadBranch = outline :=
    Except.ok.inj (isOutline.symm.trans laidOut.isOutline)
  have deadIn := deadBranch_reached.live.mem_preorder
  obtain ⟨node, nodeIn, isDead, marked⟩ := laidOut.exists_node isDiagram deadIn
  refine ⟨deadBranch, diagram, isOutline, isDiagram, node, nodeIn,
    marked.mpr deadBranch_reached, ?_⟩
  rintro ⟨shown, isShown, live⟩
  obtain rfl := laidOut.eq_of_label live.mem_preorder deadIn
    (isShown.trans isDead)
  exact deadBranch_not_live live

/-- A live node is marked unless it is stranded in the body of a service.  So
all live nodes are marked, and all nodes of a tree without results, exactly if
the body of every service is a block with members. -/
theorem live_nodes_marked_iff {settings : LayoutSettings α} {tree : Tree α}
    (accepted : tree.validate settings.maxDepth = .ok ()) :
    ∃ outline, tree.outline settings.maxDepth = .ok outline ∧
      (∀ error, tree.layout settings = .error error → error.IsGeometric) ∧
      ∀ diagram, tree.layout settings = .ok diagram →
        (∀ shown, Live Program.completes false outline shown →
          ∃ node ∈ diagram.nodes, node.id = shown.label ∧
            (node.reachable = true ↔ ¬ outline.Stranded shown)) ∧
        ((∀ node ∈ diagram.nodes, ∀ shown, shown.label = node.id →
            Live Program.completes false outline shown →
            node.reachable = true) ↔
          ∀ label body, .container label .service body ∈ outline.preorder →
            body.isFilledBlock = true) ∧
        ((∀ shown ∈ outline.preorder, shown.tag ≠ .result) →
          ((∀ node ∈ diagram.nodes, node.reachable = true) ↔
            ∀ label body, .container label .service body ∈ outline.preorder →
              body.isFilledBlock = true)) := by
  obtain ⟨outline, laidOut⟩ := Tree.exists_laidOut accepted
  refine ⟨outline, laidOut.isOutline, laidOut.fails, fun diagram isDiagram =>
    ⟨fun shown live => ?_, ⟨fun allMarked => ?_, fun filled => ?_⟩,
      fun noResult => ⟨fun allMarked => ?_, fun filled => ?_⟩⟩⟩
  · obtain ⟨node, nodeIn, isShown, marked⟩ :=
      laidOut.exists_node isDiagram live.mem_preorder
    exact ⟨node, nodeIn, isShown,
      marked.trans (Tree.LaidOut.reached_iff_of_live live)⟩
  · intro label body serviceIn
    refine laidOut.filled_of_marked (fun shown live => ?_) serviceIn
    obtain ⟨node, nodeIn, isShown, marked⟩ :=
      laidOut.exists_node isDiagram live.mem_preorder
    exact marked.mp (allMarked node nodeIn shown isShown.symm live)
  · intro node nodeIn shown isShown live
    rw [laidOut.marked diagram isDiagram node nodeIn]
    exact ⟨shown, isShown, (Tree.LaidOut.reached_iff_of_live live).mpr
      (Tree.LaidOut.notStranded_of_filled filled shown)⟩
  · intro label body serviceIn
    refine laidOut.filled_of_marked (fun shown live => ?_) serviceIn
    obtain ⟨node, nodeIn, isShown, marked⟩ :=
      laidOut.exists_node isDiagram live.mem_preorder
    exact marked.mp (allMarked node nodeIn)
  · intro node nodeIn
    rw [laidOut.marked diagram isDiagram node nodeIn]
    have isShown : node.id ∈ outline.labels := by
      rw [← laidOut.nodes diagram isDiagram]
      exact List.mem_map_of_mem nodeIn
    obtain ⟨shown, shownIn, isShown⟩ := List.mem_map.mp isShown
    have live : Live Program.completes false outline shown := by
      refine (Program.live_iff laidOut.distinct).mpr
        ⟨shownIn, fun previous member follows _ => ?_⟩
      have previousIn := follows.previous_mem_preorder
      exact Program.completes_of_no_result
        (fun inner innerIn =>
          noResult inner (Program.mem_preorder_trans previousIn innerIn))
        fun label emptyIn => laidOut.armed label
          (Program.mem_preorder_trans previousIn emptyIn)
    exact ⟨shown, isShown, (Tree.LaidOut.reached_iff_of_live live).mpr
      (Tree.LaidOut.notStranded_of_filled filled shown)⟩

/-- The body of the service is a block, but an empty one. -/
def bareService : Program NodeId := .container "s" .service (.block "b" [])

theorem bareService_valid : bareService.plainTree.validate
    (LayoutSettings.standard : LayoutSettings Rat).maxDepth = .ok () := by
  cbv

theorem live_nodes_of_bareService :
    bareService.plainTree.validate
        (LayoutSettings.standard : LayoutSettings Rat).maxDepth = .ok () ∧
      ∃ outline, bareService.plainTree.outline 64 = .ok outline ∧
        ∀ diagram, bareService.plainTree.layout .standard = .ok diagram →
          ∀ shown, Live Program.completes false outline shown →
            ∃ node ∈ diagram.nodes, node.id = shown.label ∧
              (node.reachable = true ↔ ¬ outline.Stranded shown) := by
  obtain ⟨outline, isOutline, -, marked⟩ :=
    live_nodes_marked_iff bareService_valid
  exact ⟨bareService_valid, outline, isOutline, fun diagram isDiagram =>
    (marked diagram isDiagram).1⟩

/-- A live node can be left unmarked. -/
theorem not_all_live_nodes_marked : ∃ outline diagram,
    bareService.plainTree.outline 64 = .ok outline ∧
      bareService.plainTree.layout .standard = .ok diagram ∧
      ∃ node ∈ diagram.nodes, node.reachable = false ∧
        ∃ shown, shown.label = node.id ∧
          Live Program.completes false outline shown := by
  obtain ⟨diagram, isDiagram⟩ := Tree.exists_standard_layout bareService_valid
  obtain ⟨outline, laidOut⟩ := Tree.exists_laidOut bareService_valid
  have isOutline : bareService.plainTree.outline 64 = .ok bareService := by cbv
  obtain rfl : bareService = outline :=
    Except.ok.inj (isOutline.symm.trans laidOut.isOutline)
  have live : Live Program.completes false bareService (.block "b" []) :=
    .inside (by simp [bareService, Program.tag]) (List.mem_singleton_self _)
      (.here _ _)
  have stranded : bareService.Stranded (.block "b" []) :=
    ⟨"s", .block "b" [], bareService.self_mem_preorder,
      by simp [Program.strandedPart, Program.isFilledBlock, Program.preorder,
        Program.preorderMembers, Program.tag]⟩
  obtain ⟨node, nodeIn, isBody, marked⟩ :=
    laidOut.exists_node isDiagram live.mem_preorder
  rw [Tree.LaidOut.reached_iff_of_live live] at marked
  refine ⟨bareService, diagram, isOutline, isDiagram, node, nodeIn, ?_, _,
    isBody.symm, live⟩
  simpa [stranded] using marked

end Flowchart
