import Flowchart.Proofs.Flow.Liveness
import Flowchart.Proofs.Layout.Placed
import Flowchart.Proofs.Tree.Placement

/-!
# Diagrams of well formed trees

The layout of a tree that passes validation depends on the program that the tree
stores, whatever a sound cache has of it.
-/

namespace Flowchart

namespace Program

variable {α : Type} [Scalar α] {settings : LayoutSettings α}

/-! ## Frames of a program -/

theorem preorder_framed (program : Program (Label α)) :
    (program.framed settings).preorder =
      program.preorder.map (framed settings) := by
  induction program using childrenInduction with
  | step program ih =>
    rw [preorder_eq, preorder_eq program, children_framed, List.map_cons,
      List.flatMap_map, List.map_flatMap]
    congr 1
    exact List.flatMap_congr fun child childIn => ih child childIn

@[simp]
theorem tag_framed (program : Program (Label α)) :
    (program.framed settings).tag = program.tag := by
  cases program with
  | decision label consequent alternative => cases alternative <;> rfl
  | _ => rfl

/-- The same constructs with the same identities. -/
theorem map_framed (program : Program (Label α)) :
    (program.framed settings).map Frame.id = program.map Label.id := by
  induction program with
  | block label members ih =>
      have sameId : (blockFrame settings label
          ((framedMembers settings members).map Program.label)).id = label.id :=
        id_framed settings (.block label members)
      simp only [framed, map, mapMembers_eq, framedMembers_eq, List.map_map,
        block.injEq] at sameId ⊢
      exact ⟨sameId, List.map_congr_left ih⟩
  | selection label arms ih =>
      simp only [framed, map, mapArms_eq, framedArms_eq, List.map_map,
        selection.injEq]
      exact ⟨rfl, List.map_congr_left fun arm armIn => by simp [ih arm armIn]⟩
  | decision label consequent ih => simp [framed, map, ih, Frame.decision]
  | choice label consequent alternative ih₁ ih₂ =>
      simp [framed, map, ih₁, ih₂, Frame.decision]
  | loop label kind body ih => simp [framed, map, ih, Frame.loop]
  | container label kind body ih => simp [framed, map, ih, Frame.container]
  | _ => rfl

omit [Scalar α] in
theorem labels_map_id (program : Program (Label α)) :
    (program.map Label.id).labels = program.ids := by
  rw [labels_map, labels, List.map_map]
  rfl

omit [Scalar α] in
theorem ids_written (program : Located α) :
    program.written.ids = program.identities := by
  rw [← labels_map_id, written, map_map, labels_map, labels, List.map_map]
  rfl

/-- Where no node is at fault, none below a node of it is. -/
theorem fault?_framed_of_mem {program node : Program (Label α)}
    (intact : Arrangement.fault? (program.framed settings) = none)
    (nodeIn : node ∈ program.preorder) :
    Arrangement.fault? (node.framed settings) = none := by
  have framedIn : node.framed settings ∈ (program.framed settings).preorder := by
    rw [preorder_framed]
    exact List.mem_map_of_mem nodeIn
  rw [Arrangement.fault?_eq_none_iff] at intact ⊢
  exact fun inner innerIn => intact inner (mem_preorder_trans framedIn innerIn)

theorem ids_framed (program : Program (Label α)) :
    (program.framed settings).labels.map Frame.id = program.ids := by
  rw [← labels_map, map_framed, labels_map_id]

theorem isFilledBlock_map {L M : Type} (change : L → M) (program : Program L) :
    (program.map change).isFilledBlock = program.isFilledBlock := by
  cases program with
  | block label members => cases members <;> rfl
  | decision label consequent alternative => cases alternative <;> rfl
  | _ => rfl

variable (settings) in
/-- All but blocks with members have a figure. -/
theorem figure_framed (program : Program (Label α)) :
    (program.framed settings).label.figure.isNone = program.isFilledBlock := by
  cases program with
  | block label members => cases members <;> rfl
  | decision label consequent alternative => cases alternative <;> rfl
  | _ => rfl

end Program

/-! ## From arrangements to diagrams -/

namespace Diagram

variable {α : Type} [Scalar α]

/-- The diagram of an arrangement in which no flow is marked yet. -/
def unmarked (arrangement : Arrangement α) : Diagram α :=
  { root := arrangement.label.id
    bounds := .ofTopLeft .origin arrangement.label.size
    nodes := arrangement.place .origin none 0
    edges := (arrangement.map Frame.id).flow.1 }

theorem ofArrangement_eq {arrangement : Arrangement α}
    (distinct : (arrangement.labels.map Frame.id).Nodup) :
    ofArrangement arrangement = do
      (unmarked arrangement).edges.forM fun edge => do
        checkEndpoint (unmarked arrangement).nodes edge.source
        checkEndpoint (unmarked arrangement).nodes edge.target
      if let some (first, second) := arrangement.overlap? .origin then
        throw (.siblingOverlap first second)
      return (unmarked arrangement).markReachable
        (arrangement.map Frame.id).flow.2 := by
  have isPlaced : Keyed.ofList DiagramNode.id
      (arrangement.place .origin none 0) = arrangement.place .origin none 0 :=
    Keyed.ofList_eq_self (by rwa [Arrangement.ids_place])
  rw [ofArrangement, isPlaced]
  rfl

/-- The diagram of an arrangement, if there is one. -/
theorem eq_of_ofArrangement {arrangement : Arrangement α} {diagram : Diagram α}
    (distinct : (arrangement.labels.map Frame.id).Nodup)
    (isDiagram : ofArrangement arrangement = .ok diagram) :
    diagram = (unmarked arrangement).markReachable
      (arrangement.map Frame.id).flow.2 := by
  rw [ofArrangement_eq distinct] at isDiagram
  cases checked : (unmarked arrangement).edges.forM fun edge => do
      checkEndpoint (unmarked arrangement).nodes edge.source
      checkEndpoint (unmarked arrangement).nodes edge.target with
  | error fault =>
      rw [checked] at isDiagram
      cases isDiagram
  | ok _ =>
      rw [checked] at isDiagram
      cases overlaps : arrangement.overlap? .origin with
      | some pair =>
          rw [overlaps] at isDiagram
          cases isDiagram
      | none =>
          rw [overlaps] at isDiagram
          cases isDiagram
          rfl

/-- A node with its mark. -/
def marked {α : Type} (diagram : Diagram α) (starts : List NodeId)
    (node : DiagramNode α) : DiagramNode α :=
  let reached := reachedFrom diagram.nodes diagram.edges starts
  { node with reachable := decide (node.id ∈ reached) }

theorem ids_markReachable {α : Type} (diagram : Diagram α)
    (starts : List NodeId) :
    (diagram.markReachable starts).nodes.map DiagramNode.id =
      diagram.nodes.map DiagramNode.id := by
  rw [Diagram.markReachable, List.map_map]
  rfl

theorem children_markReachable {α : Type} (diagram : Diagram α)
    (starts : List NodeId) (id : NodeId) :
    (diagram.markReachable starts).children id =
      (diagram.children id).map (diagram.marked starts) :=
  List.filter_map

end Diagram

/-! ## Layout of a tree -/

namespace Program

variable {α : Type} [Scalar α]

/-- The diagram of a program that is measured from nothing. -/
def diagram (settings : LayoutSettings α) (program : Program (Label α)) :
    Except Fault (Diagram α) :=
  program.arrange settings >>= Diagram.ofArrangement

theorem eq_of_diagram {settings : LayoutSettings α}
    {program : Program (Label α)} {diagram : Diagram α}
    (distinct : program.ids.Nodup)
    (isDiagram : program.diagram settings = .ok diagram) :
    diagram = (Diagram.unmarked (program.framed settings)).markReachable
      (program.map Label.id).flow.2 := by
  cases arranged : program.arrange settings with
  | error fault =>
      rw [Program.diagram, arranged] at isDiagram
      cases isDiagram
  | ok arrangement =>
      obtain ⟨-, rfl⟩ := settle_eq_ok.mp arranged
      rw [Program.diagram, arranged] at isDiagram
      have sameIds : (program.framed settings).map Frame.id =
          program.map Label.id := map_framed program
      rw [← sameIds]
      exact Diagram.eq_of_ofArrangement (by rwa [ids_framed]) isDiagram

end Program

namespace Tree

variable {α : Type} [Scalar α] {settings : LayoutSettings α} {tree : Tree α}
  {program : Program (Label α)} {cache : ArrangementCache α}

/-- A malformed tree is not measured at all. -/
theorem layoutCached_of_defect {defect : Defect}
    (malformed : tree.validate settings.maxDepth = .error defect)
    (cache : ArrangementCache α) :
    tree.layoutCached settings cache = (.error (.structural defect), cache) := by
  unfold layoutCached
  rw [program_of_defect malformed]

/-- A tree is laid out with a sound cache as it would be from nothing. -/
theorem layoutCached_fst (read : tree.program settings.maxDepth = .ok program)
    (distinct : program.ids.Nodup) (sound : cache.Sound settings program) :
    (tree.layoutCached settings cache).1 =
      (program.diagram settings).mapError .inconsistent := by
  have measured := (Program.measure_gives distinct sound).result_eq
  rcases ran : (program.measure settings).run.run cache with ⟨result, later⟩
  rw [ran] at measured
  unfold layoutCached
  rw [read]
  simp only [ran]
  rw [Program.diagram, ← measured]
  cases result with
  | error fault => rfl
  | ok arrangement =>
      change _ = (Diagram.ofArrangement arrangement).mapError _
      dsimp only
      cases Diagram.ofArrangement arrangement <;> rfl

/-- Afterwards the cache holds the arrangements of this program. -/
theorem layoutCached_snd (read : tree.program settings.maxDepth = .ok program)
    (distinct : program.ids.Nodup) (sound : cache.Sound settings program)
    {diagram : Diagram α}
    (laidOut : (tree.layoutCached settings cache).1 = .ok diagram) :
    ∃ later : ArrangementCache α, (tree.layoutCached settings cache).2 =
      later.retain (program.framed settings) := by
  have measured := (Program.measure_gives distinct sound).result_eq
  rcases ran : (program.measure settings).run.run cache with ⟨result, later⟩
  rw [ran] at measured
  unfold layoutCached at laidOut ⊢
  rw [read] at laidOut ⊢
  simp only [ran] at laidOut ⊢
  cases result with
  | error fault => cases laidOut
  | ok arrangement =>
      obtain ⟨-, rfl⟩ := settle_eq_ok.mp measured.symm
      simp only at laidOut ⊢
      cases drawn : Diagram.ofArrangement (program.framed settings) with
      | error fault =>
          rw [drawn] at laidOut
          cases laidOut
      | ok _ => exact ⟨later, rfl⟩

theorem sound_empty (program : Program (Label α)) :
    ArrangementCache.empty.Sound settings program :=
  fun _ _ _ found => by cases found

theorem layout_eq (read : tree.program settings.maxDepth = .ok program)
    (distinct : program.ids.Nodup) :
    tree.layout settings =
      (program.diagram settings).mapError .inconsistent :=
  layoutCached_fst read distinct (sound_empty program)

/-- Where a tree is laid out, its program has the diagram. -/
theorem diagram_of_layout (read : tree.program settings.maxDepth = .ok program)
    (distinct : program.ids.Nodup) {diagram : Diagram α}
    (laidOut : tree.layout settings = .ok diagram) :
    program.diagram settings = .ok diagram := by
  rw [layout_eq read distinct] at laidOut
  cases isDiagram : program.diagram settings with
  | error fault =>
      rw [isDiagram] at laidOut
      cases laidOut
  | ok found =>
      rw [isDiagram] at laidOut
      cases laidOut
      rfl

theorem eq_of_layout (read : tree.program settings.maxDepth = .ok program)
    (distinct : program.ids.Nodup) {diagram : Diagram α}
    (laidOut : tree.layout settings = .ok diagram) :
    diagram = (Diagram.unmarked (program.framed settings)).markReachable
      (program.map Label.id).flow.2 :=
  Program.eq_of_diagram distinct (diagram_of_layout read distinct laidOut)

omit [Scalar α] in
theorem Bears.ids_nodup {program : Located α} (bears : tree.Bears program) :
    program.written.ids.Nodup := by
  rw [Program.ids_written]
  exact bears.identitiesNodup

end Tree

end Flowchart
