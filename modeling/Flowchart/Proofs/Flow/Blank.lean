import Flowchart.Proofs.Flow.Conduct
import Flowchart.Proofs.Program.Blank

/-!
# Wiring without texts

All that a wiring takes over from what is written are the patterns beside the
connectors into the arms of a selection.  A program that is left blank has the
same connectors in the same order, but for these patterns.
-/

namespace Flowchart

/-- What stands beside a connector of this kind, patterns of arms left out. -/
def ConnectorKind.blankLabel (kind : ConnectorKind) (label : Option String) :
    Option String :=
  match kind with
  | .branchArm _ => label.map fun _ => ""
  | _ => label

/-- The edge without the pattern of an arm. -/
def Edge.blank (edge : Edge) : Edge :=
  { edge with label := edge.kind.blankLabel edge.label }

namespace OpenExit

/-- The exit without the pattern of an arm. -/
def blank (exit : OpenExit) : OpenExit :=
  { exit with label := exit.kind.blankLabel exit.label }

/-- Flow into an arm keeps its kind, and no other flow becomes of it. -/
theorem blankLabel_kindTo (kind : ConnectorKind) (target : Endpoint) (tag : Tag)
    (label : Option String) :
    (kindTo kind target tag).blankLabel label = kind.blankLabel label := by
  unfold kindTo
  split <;> rfl

theorem connect_blank (exit : OpenExit) (target : Endpoint) (tag : Tag) :
    exit.blank.connect target tag = (exit.connect target tag).blank := by
  simp only [connect, blank, Edge.blank, blankLabel_kindTo]

theorem connectTo_blank (exit : OpenExit) (entry : Option (Endpoint × Tag)) :
    exit.blank.connectTo entry = (exit.connectTo entry).map Edge.blank := by
  cases entry with
  | none => rfl
  | some entry => exact congrArg (fun edge => [edge]) (exit.connect_blank _ _)

end OpenExit

namespace Wiring

/-- The wiring without the patterns of arms. -/
def blank (wiring : Wiring) : Wiring :=
  { wiring with
    edges := wiring.edges.map Edge.blank
    exits := wiring.exits.map OpenExit.blank }

theorem close_blank (wiring : Wiring) (target : Endpoint) (tag : Tag) :
    wiring.blank.close target tag =
      (wiring.close target tag).map Edge.blank := by
  simp only [close, blank, List.map_map]
  exact List.map_congr_left fun exit _ => exit.connect_blank target tag

theorem startingAtEntry_blank (wiring : Wiring) :
    wiring.blank.startingAtEntry = wiring.startingAtEntry.blank := rfl

theorem enclosed_blank (wiring : Wiring) :
    wiring.blank.enclosed = wiring.enclosed.blank := rfl

theorem followedBy_blank (first next : Wiring) :
    first.blank.followedBy next.blank = (first.followedBy next).blank := by
  have joined : (first.exits.map OpenExit.blank).flatMap
        (fun exit => exit.connectTo next.entry) =
      (first.exits.flatMap fun exit => exit.connectTo next.entry).map
        Edge.blank := by
    rw [List.flatMap_map, List.map_flatMap]
    exact List.flatMap_congr fun exit _ => exit.connectTo_blank next.entry
  simp only [followedBy, blank, joined, List.map_append,
    apply_ite (List.map OpenExit.blank), List.map_nil]
  rfl

theorem chain_blank (members : List Wiring) :
    chain (members.map blank) = (chain members).blank := by
  rw [chain, List.foldl_map]
  change members.foldl _ nothing.blank = _
  exact List.foldl_hom blank followedBy_blank

theorem beside_blank (first next : Wiring) :
    first.blank.beside next.blank = (first.beside next).blank := by
  simp only [beside, blank, List.map_append]
  rfl

/-- The wirings of members without the patterns of arms. -/
def blankMembers (members : List (Tag × NodeId × Wiring)) :
    List (Tag × NodeId × Wiring) :=
  members.map fun member => (member.1, member.2.1, member.2.2.blank)

theorem separate_blank (members : List (Tag × NodeId × Wiring)) :
    separate (blankMembers members) = (separate members).blank := by
  rw [separate, blankMembers, List.foldl_map]
  change members.foldl _ nothing.blank = _
  refine List.foldl_hom blank fun before member => ?_
  rw [← beside_blank, ← beside_blank]
  rfl

theorem runs_blank (before : Wiring) (run : List Wiring)
    (members : List (Tag × NodeId × Wiring)) :
    runs before.blank (run.map blank) (blankMembers members) =
      (runs before run members).blank := by
  induction members generalizing before run with
  | nil =>
      change before.blank.beside (chain (run.map blank)).startingAtEntry = _
      rw [chain_blank, startingAtEntry_blank, beside_blank]
      rfl
  | cons member rest ih =>
      obtain ⟨tag, id, wiring⟩ := member
      change runs before.blank (run.map blank)
        ((tag, id, wiring.blank) :: blankMembers rest) = _
      rw [runs, runs]
      split
      · rw [← ih, ← beside_blank, ← beside_blank, ← beside_blank, chain_blank]
        rfl
      · rw [← ih, List.map_append]
        rfl

theorem branchEdges_blank (id : NodeId) (tag : Tag) (branch : OpenExit)
    (wiring : Wiring) :
    branchEdges id tag branch.blank wiring.blank =
      (branchEdges id tag branch wiring).map Edge.blank := by
  rw [branchEdges, branchEdges, close_blank, OpenExit.connectTo_blank,
    List.map_append, List.map_append]
  rfl

theorem merging_blank (id : NodeId) (tag : Tag) (edges : List Edge)
    (starts : List NodeId) (merged : Bool) :
    merging id tag (edges.map Edge.blank) starts merged =
      (merging id tag edges starts merged).blank := by
  cases merged <;> rfl

theorem decision_blank (id : NodeId) (consequent : Wiring)
    (alternative : Option Wiring) :
    decision id consequent.blank (alternative.map blank) =
      (decision id consequent alternative).blank := by
  cases alternative with
  | none =>
      simp only [decision, Option.map_none, ← merging_blank, List.map_append,
        ← branchEdges_blank]
      rfl
  | some alternative =>
      simp only [decision, Option.map_some, ← merging_blank, List.map_append,
        ← branchEdges_blank]
      simp only [blank, List.isEmpty_map]
      rfl

theorem selection_blank (id : NodeId) (arms : List (String × Wiring)) :
    selection id (arms.map fun arm => ("", arm.2.blank)) =
      (selection id arms).blank := by
  have anyMerges : ((arms.map fun arm => ("", arm.2.blank)).any
        fun arm => !arm.2.exits.isEmpty) =
      arms.any fun arm => !arm.2.exits.isEmpty := by
    simp only [List.any_map, Function.comp_def, blank, List.isEmpty_map]
  simp only [selection, ← merging_blank, anyMerges, List.map_flatten,
    List.mapIdx_eq_zipIdx_map, List.zipIdx_map, List.map_map, List.flatMap_map,
    ← branchEdges_blank, Function.comp_def]
  rfl

theorem loop_blank (id : NodeId) (kind : LoopKind) (body : Wiring) :
    loop id kind body.blank = (loop id kind body).blank := by
  rw [loop, close_blank]
  simp only [loop, blank, List.map_append, ← OpenExit.connectTo_blank]
  rfl

theorem function_blank (id : NodeId) (body : Wiring) :
    function id body.blank = (function id body).blank := by
  rw [function, close_blank]
  simp only [function, blank, List.map_append, ← OpenExit.connectTo_blank]
  rfl

end Wiring

namespace Program

theorem wireMembers_blank {members : List (Program NodeId)}
    (each : ∀ member ∈ members,
      (member.blank id).wire false = (member.wire false).blank) :
    wireMembers (members.map (blank id)) =
      Wiring.blankMembers (wireMembers members) := by
  rw [wireMembers_eq, wireMembers_eq, Wiring.blankMembers, List.map_map,
    List.map_map]
  refine List.map_congr_left fun member memberIn => ?_
  simp only [Function.comp_apply, tag_blank, label_blank, each member memberIn,
    id_eq]

/-- Every construct is wired as it would be with its texts. -/
theorem wire_blank (program : Program NodeId) (inService : Bool) :
    (program.blank id).wire inService = (program.wire inService).blank := by
  induction program generalizing inService with
  | block label members ih =>
      by_cases filled : members = []
      · subst filled
        rfl
      · have blankFilled : members.map (blank id) ≠ [] := by simpa using filled
        have wirings : (members.map (blank id)).map (wire false) =
            (members.map (wire false)).map Wiring.blank := by
          rw [List.map_map, List.map_map]
          exact List.map_congr_left fun member memberIn => ih member memberIn false
        have anyDeclared : ((members.map (blank id)).any
              fun member => member.tag.isDeclaration) =
            members.any fun member => member.tag.isDeclaration := by
          simp only [List.any_map, Function.comp_def, tag_blank]
        rw [blank, blankMembers_eq, wire_block inService _ blankFilled,
          wire_block inService _ filled,
          wireMembers_blank fun member memberIn => ih member memberIn false,
          anyDeclared, wirings]
        split
        · exact Wiring.separate_blank _
        · split
          · exact Wiring.runs_blank .nothing [] _
          · exact Wiring.chain_blank _
  | selection label arms ih =>
      have wirings : (arms.map fun arm => ("", arm.2.blank id)).map
            (fun arm => (arm.1, arm.2.wire false)) =
          (arms.map fun arm => (arm.1, arm.2.wire false)).map
            fun arm => ("", arm.2.blank) := by
        rw [List.map_map, List.map_map]
        exact List.map_congr_left fun arm armIn =>
          congrArg (Prod.mk "") (ih arm armIn false)
      rw [blank, blankArms_eq, wire, wireArms_eq, wire, wireArms_eq, wirings]
      exact Wiring.selection_blank label _
  | decision label consequent ih =>
      rw [blank, wire, ih, wire]
      exact Wiring.decision_blank label _ none
  | choice label consequent alternative ih₁ ih₂ =>
      rw [blank, wire, ih₁, ih₂, wire]
      exact Wiring.decision_blank label _ (some _)
  | loop label kind body ih =>
      rw [blank, wire, ih, wire]
      exact Wiring.loop_blank label kind _
  | container label kind body ih =>
      cases kind with
      | function =>
          rw [blank, wire, ih, wire]
          exact Wiring.function_blank label _
      | service =>
          rw [blank, wire, ih, wire, Wiring.enclosed_blank]
  | _ => rfl

/-- The flow of a program does not depend on its texts. -/
theorem flow_blank (program : Program NodeId) :
    (program.blank id).flow =
      (program.flow.1.map Edge.blank, program.flow.2) := by
  rw [flow, flow, wire_blank, tag_blank, label_blank,
    Wiring.startingAtEntry_blank]
  rfl

end Program

end Flowchart
