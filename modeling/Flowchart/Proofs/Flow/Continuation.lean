import Flowchart.Proofs.Flow.Reachable

/-!
# Flow from the top down

Wiring collects open exits from the bottom up.  The same edges are told here from
the top down: every construct is given the place where flow goes on after it, and
from that alone follow the edges at its own node.
-/

namespace Flowchart

/-- Where flow goes on: an anchor, and the kind of a plain connector to it. -/
structure Goal where
  place : Endpoint
  arrival : ConnectorKind
deriving DecidableEq, Repr

namespace Goal

def merge (id : NodeId) : Goal := ⟨⟨id, .merge⟩, .sequential⟩

def loopBack (id : NodeId) : Goal := ⟨⟨id, .loopBack⟩, .loopBack⟩

def finish (id : NodeId) : Goal := ⟨⟨id, .exit⟩, .sequential⟩

/-- The edge from an exit to a goal.  Flow that leaves a loop is told apart
wherever it goes. -/
def edgeFrom (source : Endpoint) (goal : Goal) : Edge :=
  { source
    target := goal.place
    kind := if source.anchor = .loopExit then .loopExit else goal.arrival
    label := none
    reachable := true }

end Goal

namespace Program

/-- The construct where flow that comes to a program first arrives. -/
def entrance {L : Type} : Program L → Program L
  | .block _ (first :: _) => entrance first
  | program => program

def entry (program : Program NodeId) : Endpoint :=
  ⟨program.entrance.label, .entry⟩

mutual

/-- Where flow that passes a program comes out. -/
def outlet : Program NodeId → Option Endpoint
  | .statement id _ => some ⟨id, .exit⟩
  | .block id members => lastOutlet (some ⟨id, .exit⟩) members
  | .decision id _ none => some ⟨id, .merge⟩
  | .decision id consequent (some alternative) =>
      if (outlet consequent).isSome || (outlet alternative).isSome then
        some ⟨id, .merge⟩
      else none
  | .selection id arms => if anyOutlet arms then some ⟨id, .merge⟩ else none
  | .loop id _ _ => some ⟨id, .loopExit⟩
  | .result _ | .container _ _ _ | .typeDefinition _ => none

def lastOutlet (before : Option Endpoint) :
    List (Program NodeId) → Option Endpoint
  | [] => before
  | member :: later => lastOutlet (outlet member) later

def anyOutlet : List (String × Program NodeId) → Bool
  | [] => false
  | (_, body) :: later => (outlet body).isSome || anyOutlet later

end

/-- A program as what follows another one. -/
def goal (program : Program NodeId) : Goal :=
  { place := program.entry
    arrival :=
      if program.entrance.tag = .result then .result else .sequential }

/-- What follows a member of a block, by the members after it.  The members of a
service stand each for itself; elsewhere a declaration cuts the flow off. -/
def memberFollow (inService : Bool) (members : List (Program NodeId))
    (follow : Option Goal) (member : Program NodeId) :
    List (Program NodeId) → Option Goal
  | [] =>
      if inService || members.any fun member => member.tag.isDeclaration then none
      else follow
  | next :: _ =>
      if inService || member.tag.isDeclaration || next.tag.isDeclaration then none
      else some next.goal

mutual

/-- Every construct of a program with what follows it. -/
def continuations (inService : Bool) (follow : Option Goal) :
    Program NodeId → List (Program NodeId × Option Goal)
  | program@(.statement _ _) | program@(.result _)
  | program@(.typeDefinition _) => [(program, follow)]
  | program@(.block _ members) =>
      (program, follow) ::
        memberContinuations (memberFollow inService members follow) members
  | program@(.decision id consequent none) =>
      (program, follow) :: continuations false (some (.merge id)) consequent
  | program@(.decision id consequent (some alternative)) =>
      (program, follow) ::
        (continuations false (some (.merge id)) consequent ++
          continuations false (some (.merge id)) alternative)
  | program@(.selection id arms) =>
      (program, follow) :: armContinuations (some (.merge id)) arms
  | program@(.loop id _ body) =>
      (program, follow) :: continuations false (some (.loopBack id)) body
  | program@(.container id .function body) =>
      (program, follow) :: continuations false (some (.finish id)) body
  | program@(.container _ .service body) =>
      (program, follow) :: continuations true none body

def memberContinuations
    (next : Program NodeId → List (Program NodeId) → Option Goal) :
    List (Program NodeId) → List (Program NodeId × Option Goal)
  | [] => []
  | member :: later =>
      continuations false (next member later) member ++
        memberContinuations next later

def armContinuations (follow : Option Goal) :
    List (String × Program NodeId) → List (Program NodeId × Option Goal)
  | [] => []
  | (_, body) :: later =>
      continuations false follow body ++ armContinuations follow later

end

/-- The edge by which flow leaves a construct, if it does and something
follows. -/
def leavingEdges (outlet : Option Endpoint) (follow : Option Goal) :
    List Edge :=
  match outlet, follow with
  | some source, some goal => [goal.edgeFrom source]
  | _, _ => []

/-- The edges from a node into the constructs below it, and the one past the
consequent of a decision. -/
def enteringEdges : Program NodeId → List Edge
  | .decision id consequent none =>
      [⟨⟨id, .branchTrue⟩, consequent.entry, .branchTrue, some "true", true⟩,
        ⟨⟨id, .branchFalse⟩, ⟨id, .merge⟩, .branchFalse, some "false", true⟩]
  | .decision id consequent (some alternative) =>
      [⟨⟨id, .branchTrue⟩, consequent.entry, .branchTrue, some "true", true⟩,
        ⟨⟨id, .branchFalse⟩, alternative.entry, .branchFalse, some "false",
          true⟩]
  | .selection id arms =>
      arms.mapIdx fun index (pattern, body) =>
        ⟨⟨id, .arm index⟩, body.entry, .branchArm index, some pattern, true⟩
  | .loop id _ body =>
      [⟨⟨id, .branchTrue⟩, body.entry, .loopEnter, none, true⟩]
  | .container id .function body => [body.goal.edgeFrom ⟨id, .start⟩]
  | .statement _ _ | .block _ _ | .result _ | .container _ .service _
  | .typeDefinition _ => []

/-- The edges at the node of a construct.  A block with members has no node of
its own for flow. -/
def nodeEdges (continued : Program NodeId × Option Goal) : List Edge :=
  if continued.1.isFilledBlock then []
  else leavingEdges continued.1.outlet continued.2 ++ continued.1.enteringEdges

/-- The control flow of a whole program, which nothing follows. -/
def controlFlow (program : Program NodeId) : List Edge :=
  (continuations false none program).flatMap nodeEdges

/-! ## Where flow enters and comes out -/

theorem lastOutlet_snoc (before : Option Endpoint)
    (members : List (Program NodeId)) (last : Program NodeId) :
    lastOutlet before (members ++ [last]) = last.outlet := by
  induction members generalizing before with
  | nil => rfl
  | cons member later ih => exact ih _

theorem anyOutlet_eq (arms : List (String × Program NodeId)) :
    anyOutlet arms = arms.any fun arm => arm.2.outlet.isSome := by
  induction arms with
  | nil => rfl
  | cons arm later ih => rw [anyOutlet, ih, List.any_cons]

theorem entry_chain (first : Wiring) (later : List Wiring)
    (entered : first.entry.isSome) :
    (Wiring.chain (first :: later)).entry = first.entry := by
  induction later using List.reverseRecOn with
  | nil => rw [chain_singleton]
  | append_singleton members last ih =>
      rw [← List.cons_append, chain_snoc,
        Wiring.entry_followedBy (ih.symm ▸ entered), ih]

theorem exits_chain (members : List Wiring) (last : Wiring)
    (entered : last.entry.isSome) :
    (Wiring.chain (members ++ [last])).exits = last.exits := by
  rw [chain_snoc, Wiring.exits_followedBy entered]

theorem Flowing.noneDeclared {label : NodeId} {members : List (Program NodeId)}
    (flowing : (block label members).Flowing) :
    (members.any fun member => member.tag.isDeclaration) = false := by
  rw [List.any_eq_false]
  intro member memberIn
  have childIn : member ∈ (block label members).children := memberIn
  simp [(flowing.child childIn).root]

theorem Flowing.wire_block {label : NodeId} {members : List (Program NodeId)}
    (flowing : (block label members).Flowing) (filled : members ≠ []) :
    (block label members).wire false =
      .chain (members.map (wire false)) := by
  rw [Program.wire_block false label filled, flowing.noneDeclared]
  rfl

/-- Flow enters a construct without declarations at its entrance. -/
theorem Flowing.entry_wire {program : Program NodeId}
    (flowing : program.Flowing) :
    (program.wire false).entry = some (program.entry, program.entrance.tag) := by
  induction program with
  | block label members ih =>
      cases members with
      | nil => rfl
      | cons first later =>
          have firstIn : first ∈ (block label (first :: later)).children :=
            List.mem_cons_self
          have enters := ih first List.mem_cons_self (flowing.child firstIn)
          rw [flowing.wire_block (by simp), List.map_cons,
            entry_chain _ _ (by simp [enters]), enters]
          rfl
  | container label kind body =>
      exact absurd flowing.root (by simp [tag, Tag.isDeclaration])
  | typeDefinition label =>
      exact absurd flowing.root (by simp [tag, Tag.isDeclaration])
  | _ => rfl

/-- An exit as wiring leaves it open. -/
def openExit (source : Endpoint) : OpenExit :=
  { source
    kind := if source.anchor = .loopExit then .loopExit else .sequential
    label := none }

theorem connect_openExit (source : Endpoint) (next : Program NodeId) :
    (openExit source).connect next.entry next.entrance.tag =
      next.goal.edgeFrom source := by
  have kinds : OpenExit.kindTo (openExit source).kind next.entry
      next.entrance.tag =
        if source.anchor = .loopExit then .loopExit else next.goal.arrival := by
    unfold openExit goal
    by_cases leavesLoop : source.anchor = .loopExit
    · simp [leavesLoop, OpenExit.kindTo]
    · cases isTag : next.entrance.tag <;>
        simp [leavesLoop, OpenExit.kindTo, entry]
  rw [OpenExit.connect, kinds]
  rfl

/-- Wiring whose open exits are those of an outlet, if there is one. -/
def Opens (wiring : Wiring) (outlet : Option Endpoint) : Prop :=
  wiring.exits = outlet.toList.map openExit

namespace Opens

variable {wiring : Wiring} {outlet : Option Endpoint}

theorem isSome_eq (opens : Opens wiring outlet) :
    (!wiring.exits.isEmpty) = outlet.isSome := by
  rw [opens]
  cases outlet <;> rfl

theorem connectTo_eq (opens : Opens wiring outlet) (next : Program NodeId) :
    (wiring.exits.flatMap fun exit =>
        exit.connectTo (some (next.entry, next.entrance.tag))) =
      leavingEdges outlet (some next.goal) := by
  rw [opens]
  cases outlet with
  | none => rfl
  | some source => simp [leavingEdges, OpenExit.connectTo, connect_openExit]

/-- The exits closed at an anchor of the construct around them. -/
theorem close_eq (opens : Opens wiring outlet) {goal : Goal} {tag : Tag}
    (arrives : ∀ kind, OpenExit.kindTo kind goal.place tag =
      if kind = .sequential then goal.arrival else kind) :
    wiring.close goal.place tag = leavingEdges outlet (some goal) := by
  rw [Wiring.close, opens]
  cases outlet with
  | none => rfl
  | some source =>
      simp [leavingEdges, Goal.edgeFrom, OpenExit.connect, arrives, openExit]
      split <;> simp_all

end Opens

/-- Flow leaves a construct without declarations at its outlet. -/
theorem Flowing.opens {program : Program NodeId} (flowing : program.Flowing) :
    Opens (program.wire false) program.outlet := by
  induction program with
  | statement label kind => rfl
  | result label => rfl
  | block label members ih =>
      cases members using List.reverseRecOn with
      | nil => rfl
      | append_singleton before last =>
          have lastIn : last ∈ (block label (before ++ [last])).children := by
            simp [children]
          have lastFlowing := flowing.child lastIn
          rw [Opens, flowing.wire_block (by simp), List.map_append,
            List.map_singleton, exits_chain _ _ (by simp [lastFlowing.entry_wire]),
            outlet, lastOutlet_snoc]
          exact ih last (by simp) lastFlowing
  | decision label consequent ih => rfl
  | choice label consequent alternative ih₁ ih₂ =>
      have opens₁ := ih₁ (flowing.child (by simp [children]))
      have opens₂ := ih₂ (flowing.child (by simp [children]))
      rw [Opens, wire, Wiring.decision, Wiring.merging, opens₁.isSome_eq,
        opens₂.isSome_eq, outlet]
      cases consequent.outlet.isSome || alternative.outlet.isSome <;> rfl
  | selection label arms ih =>
      have armOpens : ∀ arm ∈ arms, Opens (arm.2.wire false) arm.2.outlet :=
        fun arm armIn => ih arm armIn (flowing.child (List.mem_map_of_mem armIn))
      have anyOpens : (wireArms arms).any (fun arm => !arm.2.exits.isEmpty) =
          anyOutlet arms := by
        rw [wireArms_eq, List.any_map, anyOutlet_eq, Bool.eq_iff_iff,
          List.any_eq_true, List.any_eq_true]
        refine exists_congr fun arm => and_congr_right fun armIn => ?_
        rw [Function.comp_apply, (armOpens arm armIn).isSome_eq]
      rw [Opens, wire, Wiring.selection, Wiring.merging, anyOpens, outlet]
      cases anyOutlet arms <;> rfl
  | loop label kind body ih => rfl
  | container label kind body =>
      exact absurd flowing.root (by simp [tag, Tag.isDeclaration])
  | typeDefinition label =>
      exact absurd flowing.root (by simp [tag, Tag.isDeclaration])

/-! ## One after the other -/

/-- What follows the members of a sequence. -/
def nextGoal (follow : Option Goal) (later : List (Program NodeId)) :
    Option Goal :=
  match later with
  | [] => follow
  | next :: _ => some next.goal

theorem memberContinuations_snoc (follow : Option Goal)
    (members : List (Program NodeId)) (last : Program NodeId) :
    memberContinuations (fun _ => nextGoal follow) (members ++ [last]) =
      memberContinuations (fun _ => nextGoal (some last.goal)) members ++
        continuations false follow last := by
  induction members with
  | nil => simp [memberContinuations, nextGoal]
  | cons member later ih =>
      rw [List.cons_append, memberContinuations, ih, memberContinuations,
        List.append_assoc]
      cases later <;> rfl

/-- The edges of a construct together with those that leave it are those that the
goal after it gives. -/
def Continues (program : Program NodeId) : Prop :=
  ∀ follow, ((program.wire false).edges ++ leavingEdges program.outlet follow).Perm
    ((continuations false follow program).flatMap nodeEdges)

theorem leavingEdges_none (outlet : Option Endpoint) :
    leavingEdges outlet none = [] := by
  cases outlet <;> rfl

theorem continues_chain {members : List (Program NodeId)}
    (flowing : ∀ member ∈ members, member.Flowing)
    (each : ∀ member ∈ members, member.Continues) (filled : members ≠ [])
    (follow : Option Goal) :
    ((Wiring.chain (members.map (wire false))).edges ++
        leavingEdges (lastOutlet none members) follow).Perm
      ((memberContinuations (fun _ => nextGoal follow) members).flatMap
        nodeEdges) := by
  induction members using List.reverseRecOn generalizing follow with
  | nil => exact absurd rfl filled
  | append_singleton before last ih =>
      have lastFlowing := flowing last (by simp)
      have lastContinues := each last (by simp) follow
      have flowingBefore : ∀ member ∈ before, member.Flowing :=
        fun member memberIn => flowing member (by simp [memberIn])
      rw [lastOutlet_snoc, memberContinuations_snoc, List.flatMap_append]
      cases before using List.reverseRecOn with
      | nil =>
          rw [List.nil_append, List.map_singleton, chain_singleton]
          exact lastContinues
      | append_singleton earlier previous =>
          have beforeContinues := ih flowingBefore
            (fun member memberIn => each member (List.mem_append_left _ memberIn))
            (by simp) (some last.goal)
          have previousFlowing := flowing previous (by simp)
          have opens : Opens (Wiring.chain
              ((earlier ++ [previous]).map (wire false))) previous.outlet := by
            rw [Opens, List.map_append, List.map_singleton,
              exits_chain _ _ (by simp [previousFlowing.entry_wire])]
            exact previousFlowing.opens
          rw [lastOutlet_snoc] at beforeContinues
          rw [List.map_append, List.map_singleton, chain_snoc,
            Wiring.followedBy, lastFlowing.entry_wire, opens.connectTo_eq]
          refine .trans ?_ (beforeContinues.append lastContinues)
          simp only [List.append_assoc]
          exact (List.perm_append_comm_assoc _ _ _).append_left _

/-! ## Constructs without declarations -/

/-- What a construct adds to the one around it that closes its exits at a goal:
the edge into it, and its own edges with those to the goal. -/
theorem Continues.closed {program : Program NodeId}
    (continues : program.Continues) (flowing : program.Flowing)
    (exit : OpenExit) (goal : Goal) (tag : Tag)
    (arrives : ∀ kind, OpenExit.kindTo kind goal.place tag =
      if kind = .sequential then goal.arrival else kind) :
    ((program.wire false).edges ++
        exit.connectTo (program.wire false).entry ++
        (program.wire false).close goal.place tag).Perm
      (exit.connect program.entry program.entrance.tag ::
        (continuations false (some goal) program).flatMap nodeEdges) := by
  rw [flowing.opens.close_eq arrives, flowing.entry_wire]
  have swapped := List.perm_append_comm_assoc (program.wire false).edges
    [exit.connect program.entry program.entrance.tag]
    (leavingEdges program.outlet (some goal))
  rw [← List.append_assoc] at swapped
  exact swapped.trans ((continues _).append_left [_])

theorem Continues.branch {program : Program NodeId}
    (continues : program.Continues) (flowing : program.Flowing)
    (id : NodeId) (tag : Tag) (exit : OpenExit) :
    (Wiring.branchEdges id tag exit (program.wire false)).Perm
      (exit.connect program.entry program.entrance.tag ::
        (continuations false (some (.merge id)) program).flatMap nodeEdges) :=
  continues.closed flowing exit (.merge id) tag fun kind => by
    cases kind <;> simp [OpenExit.kindTo, Goal.merge]

theorem continues_arms {arms : List (String × Program NodeId)} (id : NodeId)
    (flowing : ∀ arm ∈ arms, arm.2.Flowing)
    (each : ∀ arm ∈ arms, arm.2.Continues) (index : Nat) :
    (((wireArms arms).zipIdx index).flatMap fun entry =>
        Wiring.branchEdges id .selection
          ⟨⟨id, .arm entry.2⟩, .branchArm entry.2, some entry.1.1⟩
          entry.1.2).Perm
      (((arms.zipIdx index).map fun entry =>
          (⟨⟨id, .arm entry.2⟩, entry.1.2.entry, .branchArm entry.2,
            some entry.1.1, true⟩ : Edge)) ++
        (armContinuations (some (.merge id)) arms).flatMap nodeEdges) := by
  induction arms generalizing index with
  | nil => simp [wireArms, armContinuations]
  | cons arm later ih =>
      have armContinues := (each arm List.mem_cons_self).branch
        (flowing arm List.mem_cons_self) id .selection
        ⟨⟨id, .arm index⟩, .branchArm index, some arm.1⟩
      have laterContinues := ih
        (fun other otherIn => flowing other (List.mem_cons_of_mem _ otherIn))
        (fun other otherIn => each other (List.mem_cons_of_mem _ otherIn))
        (index + 1)
      have both := armContinues.append laterContinues
      simp only [wireArms, armContinuations, List.zipIdx_cons, List.flatMap_cons,
        List.map_cons, List.flatMap_append]
      refine both.trans (.cons _ ?_)
      exact List.perm_append_comm_assoc _ _ _

theorem Continues.of_edges {program : Program NodeId}
    {inner : List (Program NodeId × Option Goal)}
    (hasNode : program.isFilledBlock = false)
    (continued : ∀ follow,
      continuations false follow program = (program, follow) :: inner)
    (edges : (program.wire false).edges.Perm
      (program.enteringEdges ++ inner.flatMap nodeEdges)) :
    program.Continues := by
  intro follow
  rw [continued, List.flatMap_cons, nodeEdges, hasNode, if_neg (by simp),
    List.append_assoc]
  exact (edges.append_right _).trans List.perm_append_comm

/-- Members that are no declarations follow each other up to what comes after
them. -/
theorem memberContinuations_run {run : List (Program NodeId)}
    (members later : List (Program NodeId)) (follow after : Option Goal)
    (isRun : ∀ member ∈ run, member.tag.isDeclaration = false)
    (ends : ∀ member : Program NodeId, member.tag.isDeclaration = false →
      memberFollow false members follow member later = after) :
    memberContinuations (memberFollow false members follow) (run ++ later) =
      memberContinuations (fun _ => nextGoal after) run ++
        memberContinuations (memberFollow false members follow) later := by
  induction run with
  | nil => rfl
  | cons member rest ih =>
      have plain := isRun member List.mem_cons_self
      have restRun : ∀ member ∈ rest, member.tag.isDeclaration = false :=
        fun other otherIn => isRun other (List.mem_cons_of_mem _ otherIn)
      have next : memberFollow false members follow member (rest ++ later) =
          nextGoal after rest := by
        cases rest with
        | nil => exact ends member plain
        | cons other others =>
            simp [memberFollow, nextGoal, plain, restRun other List.mem_cons_self]
      rw [List.cons_append, memberContinuations, ih restRun, next,
        memberContinuations, List.append_assoc]

theorem Flowing.continues {program : Program NodeId}
    (flowing : program.Flowing) : program.Continues := by
  induction program with
  | statement label kind => exact .of_edges rfl (fun _ => rfl) (.refl _)
  | result label => exact .of_edges rfl (fun _ => rfl) (.refl _)
  | block label members ih =>
      cases members with
      | nil => exact .of_edges rfl (fun _ => rfl) (.refl _)
      | cons first later =>
          intro follow
          have flowingEach : ∀ member ∈ first :: later, member.Flowing :=
            fun member memberIn => flowing.child
              (show member ∈ (block label (first :: later)).children from memberIn)
          have chained := continues_chain flowingEach
            (fun member memberIn => ih member memberIn (flowingEach member memberIn))
            (by simp) follow
          have sequence := memberContinuations_run (first :: later) [] follow
            follow (fun member memberIn => (flowingEach member memberIn).root)
            fun member _ => by simp only [memberFollow, flowing.noneDeclared]; rfl
          rw [List.append_nil] at sequence
          rw [flowing.wire_block (by simp), continuations, sequence,
            List.flatMap_cons, nodeEdges, memberContinuations, List.append_nil]
          exact chained
  | decision label consequent ih =>
      have flowingChild : consequent.Flowing := flowing.child (by simp [children])
      have branch := (ih flowingChild).branch flowingChild label .decision
        ⟨⟨label, .branchTrue⟩, .branchTrue, some "true"⟩
      refine .of_edges rfl (fun _ => rfl) ?_
      exact (branch.append_right _).trans (.cons _ List.perm_append_comm)
  | choice label consequent alternative ih₁ ih₂ =>
      have flowing₁ : consequent.Flowing := flowing.child (by simp [children])
      have flowing₂ : alternative.Flowing := flowing.child (by simp [children])
      have branch₁ := (ih₁ flowing₁).branch flowing₁ label .decision
        ⟨⟨label, .branchTrue⟩, .branchTrue, some "true"⟩
      have branch₂ := (ih₂ flowing₂).branch flowing₂ label .decision
        ⟨⟨label, .branchFalse⟩, .branchFalse, some "false"⟩
      refine .of_edges rfl (fun _ => rfl) ((branch₁.append branch₂).trans ?_)
      rw [List.flatMap_append]
      exact .cons _ List.perm_middle
  | selection label arms ih =>
      have flowingEach : ∀ arm ∈ arms, arm.2.Flowing :=
        fun arm armIn => flowing.child (List.mem_map_of_mem armIn)
      have branches := continues_arms label flowingEach
        (fun arm armIn => ih arm armIn (flowingEach arm armIn)) 0
      refine .of_edges rfl (fun _ => rfl) ?_
      rw [wire, Wiring.selection, enteringEdges, List.mapIdx_eq_zipIdx_map,
        List.mapIdx_eq_zipIdx_map]
      exact branches
  | loop label kind body ih =>
      have flowingBody : body.Flowing := flowing.child (by simp [children])
      have closed := (ih flowingBody).closed flowingBody
        ⟨⟨label, .branchTrue⟩, .loopEnter, none⟩ (.loopBack label)
        (.loop kind) fun kind => by
          cases kind <;> simp [OpenExit.kindTo, Goal.loopBack]
      exact .of_edges rfl (fun _ => rfl) closed
  | container label kind body =>
      exact absurd flowing.root (by simp [tag, Tag.isDeclaration])
  | typeDefinition label =>
      exact absurd flowing.root (by simp [tag, Tag.isDeclaration])

/-! ## Constructs with declarations -/

/-- The edges inside a program that nothing follows. -/
def FlowsInside (inService : Bool) (program : Program NodeId) : Prop :=
  (program.wire inService).edges.Perm
    ((continuations inService none program).flatMap nodeEdges)

theorem Continues.flowsInside {program : Program NodeId}
    (continues : program.Continues) : program.FlowsInside false := by
  have edges := continues none
  rwa [leavingEdges_none, List.append_nil] at edges

/-- The edges of members that each stand for itself. -/
theorem flowsInside_separate {members all : List (Program NodeId)}
    (each : ∀ member ∈ members, member.FlowsInside false) :
    (members.flatMap fun member => member.flow.1).Perm
      ((memberContinuations (memberFollow true all none) members).flatMap
        nodeEdges) := by
  induction members with
  | nil => exact .refl _
  | cons member later ih =>
      have alone : memberFollow true all none member later = none := by
        cases later <;> rfl
      rw [List.flatMap_cons, memberContinuations, alone, List.flatMap_append]
      exact (each member List.mem_cons_self).append
        (ih fun other otherIn => each other (List.mem_cons_of_mem _ otherIn))

theorem continues_run {run : List (Program NodeId)}
    (flowing : ∀ member ∈ run, member.Flowing) :
    (Wiring.chain (run.map (wire false))).edges.Perm
      ((memberContinuations (fun _ => nextGoal none) run).flatMap nodeEdges) := by
  cases run with
  | nil => exact .refl _
  | cons first later =>
      have chained := continues_chain flowing
        (fun member memberIn => (flowing member memberIn).continues) (by simp) none
      rwa [leavingEdges_none, List.append_nil] at chained

/-- The edges of the runs between declarations, and of the declarations. -/
theorem flowsInside_runs {rest all : List (Program NodeId)}
    (before : Wiring) (run : List (Program NodeId))
    (declared : ∃ member ∈ all, member.tag.isDeclaration = true)
    (runFlowing : ∀ member ∈ run, member.Flowing)
    (flowing : ∀ member ∈ rest, member.tag.isDeclaration = false →
      member.Flowing)
    (inside : ∀ member ∈ rest, member.tag.isDeclaration = true →
      member.FlowsInside false) :
    (Wiring.runs before (run.map (wire false)) (wireMembers rest)).edges.Perm
      (before.edges ++
        (memberContinuations (memberFollow false all none)
          (run ++ rest)).flatMap nodeEdges) := by
  have someDeclared : (all.any fun member => member.tag.isDeclaration) = true :=
    List.any_eq_true.mpr declared
  have runPlain : ∀ member ∈ run, member.tag.isDeclaration = false :=
    fun member memberIn => (runFlowing member memberIn).root
  have runEdges := continues_run runFlowing
  induction rest generalizing run before with
  | nil =>
      have sequence := memberContinuations_run all [] none none runPlain
        fun member _ => by
          simp only [memberFollow, someDeclared]
          rfl
      rw [wireMembers, Wiring.runs, sequence, memberContinuations,
        List.append_nil]
      exact runEdges.append_left _
  | cons member later ih =>
      have laterFlowing : ∀ other ∈ later, other.tag.isDeclaration = false →
          other.Flowing :=
        fun other otherIn => flowing other (List.mem_cons_of_mem _ otherIn)
      have laterInside : ∀ other ∈ later, other.tag.isDeclaration = true →
          other.FlowsInside false :=
        fun other otherIn => inside other (List.mem_cons_of_mem _ otherIn)
      rw [wireMembers, Wiring.runs]
      split
      · -- A declaration ends the run before it, and nothing follows it either.
        rename_i isDeclared
        have memberEdges := inside member List.mem_cons_self isDeclared
        have sequence := memberContinuations_run all (member :: later) none none
          runPlain fun _ _ => by simp [memberFollow, isDeclared]
        have alone : memberFollow false all none member later = none := by
          cases later <;> simp [memberFollow, isDeclared, someDeclared]
        rw [sequence, memberContinuations, alone, List.flatMap_append,
          List.flatMap_append]
        refine (ih _ [] (by simp) laterFlowing laterInside (by simp)
          (.refl _)).trans ?_
        simp only [Wiring.beside, Wiring.startingAtEntry, Wiring.enclosed,
          Wiring.nothing, List.append_assoc, List.nil_append]
        exact (runEdges.append (memberEdges.append_right _)).append_left _
      · rename_i isPlain
        have plain : member.tag.isDeclaration = false := by simpa using isPlain
        have memberFlowing := flowing member List.mem_cons_self plain
        have longerFlowing : ∀ other ∈ run ++ [member], other.Flowing := by
          intro other otherIn
          rcases List.mem_append.mp otherIn with inRun | isMember
          · exact runFlowing other inRun
          · rwa [List.mem_singleton.mp isMember]
        have longer := ih before (run ++ [member]) longerFlowing laterFlowing
          laterInside
          (fun other otherIn => (longerFlowing other otherIn).root)
          (continues_run longerFlowing)
        simpa using longer

theorem flowsInside_block (inService : Bool) (label : NodeId)
    {members : List (Program NodeId)}
    (inside : ∀ member ∈ members, member.tag.isDeclaration = true →
      member.FlowsInside false)
    (flowing : ∀ member ∈ members, member.tag.isDeclaration = false →
      member.Flowing) : (block label members).FlowsInside inService := by
  by_cases filled : members = []
  · subst filled
    exact .refl _
  have hasNoNode : (block label members).isFilledBlock = true := by
    cases members with
    | nil => exact absurd rfl filled
    | cons => rfl
  have edgesEq : ((continuations inService none (block label members)).flatMap
      nodeEdges) = (memberContinuations (memberFollow inService members none)
        members).flatMap nodeEdges := by
    rw [continuations, List.flatMap_cons, nodeEdges, hasNoNode]
    rfl
  rw [FlowsInside, edgesEq, Program.wire_block inService label filled]
  cases inService with
  | true =>
      rw [if_pos rfl, (separate_eq members).1]
      refine flowsInside_separate fun member memberIn => ?_
      by_cases isDeclared : member.tag.isDeclaration = true
      · exact inside member memberIn isDeclared
      · exact (flowing member memberIn
          (by simpa using isDeclared)).continues.flowsInside
  | false =>
      rw [if_neg (by simp)]
      split
      · rename_i someDeclared
        exact flowsInside_runs .nothing []
          (List.any_eq_true.mp someDeclared) (by simp) flowing inside
      · rename_i noneDeclared
        have flowingEach : ∀ member ∈ members, member.Flowing := by
          intro member memberIn
          apply flowing member memberIn
          simpa using fun isDeclared =>
            noneDeclared (List.any_eq_true.mpr ⟨member, memberIn, isDeclared⟩)
        have sequence := memberContinuations_run members [] none none
          (fun member memberIn => (flowingEach member memberIn).root)
          fun member _ => by simp [memberFollow]
        rw [List.append_nil] at sequence
        rw [sequence, memberContinuations, List.append_nil]
        exact continues_run flowingEach

/-- In every program that may stand outside, what follows each construct gives
the edges of the wiring. -/
theorem Outer.flowsInside {program : Program NodeId} (outer : program.Outer)
    (inService : Bool) : program.FlowsInside inService := by
  induction outer generalizing inService with
  | typeDefinition label => exact .refl _
  | @function label body flowing =>
      have closed := flowing.continues.closed flowing
        ⟨⟨label, .start⟩, .sequential, none⟩ (.finish label)
        (.container .function) fun kind => by
          cases kind <;> simp [OpenExit.kindTo, Goal.finish]
      have begins := connect_openExit ⟨label, .start⟩ body
      have edgesEq : (continuations inService none
          (.container label .function body)).flatMap nodeEdges =
            body.goal.edgeFrom ⟨label, .start⟩ ::
              (continuations false (some (.finish label)) body).flatMap
                nodeEdges := by
        rw [continuations, List.flatMap_cons]
        rfl
      rw [FlowsInside, edgesEq, ← begins]
      exact closed
  | service label _ ih => exact ih true
  | @block label members declared flowing ih =>
      exact flowsInside_block inService label
        (fun member memberIn isDeclared => ih member memberIn isDeclared false)
        flowing
  | @flowing program flowing =>
      have alone := flowing.continues.flowsInside
      cases program with
      | block label members =>
          have flowingEach : ∀ member ∈ members, member.Flowing :=
            fun member memberIn => flowing.child
              (show member ∈ (Program.block label members).children from memberIn)
          exact flowsInside_block inService label
            (fun member memberIn _ =>
              (flowingEach member memberIn).continues.flowsInside)
            fun member memberIn _ => flowingEach member memberIn
      | decision label consequent alternative =>
          cases alternative <;> exact alone
      | container label kind body =>
          exact absurd flowing.root (by simp [tag, Tag.isDeclaration])
      | _ => exact alone

/-- No edge is marked before the diagram is. -/
theorem reachable_of_mem_controlFlow {program : Program NodeId} {edge : Edge}
    (edgeIn : edge ∈ program.controlFlow) : edge.reachable = true := by
  obtain ⟨⟨node, follow⟩, -, atNode⟩ := List.mem_flatMap.mp edgeIn
  unfold nodeEdges at atNode
  split at atNode
  · simp at atNode
  · rcases List.mem_append.mp atNode with leaves | enters
    · cases outletEq : node.outlet <;> cases follow <;>
        simp_all [leavingEdges, Goal.edgeFrom]
    · cases node with
      | decision id consequent alternative =>
          cases alternative with
          | none =>
              rcases List.mem_pair.mp enters with rfl | rfl <;> rfl
          | some alternative =>
              rcases List.mem_pair.mp enters with rfl | rfl <;> rfl
      | selection id arms =>
          obtain ⟨index, inside, rfl⟩ := List.mem_mapIdx.mp enters
          rfl
      | loop id kind body =>
          rw [List.mem_singleton.mp enters]
      | container id kind body =>
          cases kind with
          | function =>
              rw [List.mem_singleton.mp enters]
              rfl
          | service => simp [enteringEdges] at enters
      | _ => simp [enteringEdges] at enters

end Program

/-! ## The edges of a tree -/

variable {α : Type} [Scalar α]

/-- The edges of a diagram are those of the outline, marked. -/
theorem Tree.edges_of_layout {settings : LayoutSettings α} {tree : Tree α}
    {outline : Program NodeId} {diagram : Diagram α}
    (isOutline : tree.outline settings.maxDepth = .ok outline)
    (accepted : tree.validate settings.maxDepth = .ok ())
    (isDiagram : tree.layout settings = .ok diagram) :
    ∃ mark : Edge → Bool, diagram.edges =
      outline.flow.1.map fun edge => { edge with reachable := mark edge } := by
  obtain ⟨located, stores⟩ := exists_stores accepted
  have read := program_eq accepted stores
  have distinct := stores.ids_nodup
  rw [Tree.outline, read] at isOutline
  obtain rfl := Except.ok.inj isOutline
  rw [eq_of_layout read distinct isDiagram, Diagram.unmarked,
    Program.map_framed]
  exact ⟨_, rfl⟩

/-- The wiring of a tree that passes validation gives the edges that its
constructs have from what follows them, each as often. -/
theorem flow_perm_controlFlow {settings : LayoutSettings α} {tree : Tree α}
    (accepted : tree.validate settings.maxDepth = .ok ()) :
    ∃ outline, tree.outline settings.maxDepth = .ok outline ∧
      outline.flow.1.Perm outline.controlFlow ∧
      ∀ diagram, tree.layout settings = .ok diagram →
        (diagram.edges.map fun edge => { edge with reachable := true }).Perm
          outline.controlFlow := by
  obtain ⟨outline, laidOut⟩ := Tree.exists_laidOut accepted
  have edges : outline.flow.1.Perm outline.controlFlow :=
    laidOut.outer.flowsInside false
  refine ⟨outline, laidOut.isOutline, edges, fun diagram isDiagram => ?_⟩
  obtain ⟨mark, marked⟩ :=
    Tree.edges_of_layout laidOut.isOutline accepted isDiagram
  have unmarked : outline.flow.1.map (fun edge => { edge with reachable := true }) =
      outline.flow.1 := by
    refine (List.map_congr_left fun edge edgeIn => ?_).trans (List.map_id _)
    have isTrue :=
      Program.reachable_of_mem_controlFlow (edges.mem_iff.mp edgeIn)
    rw [← isTrue]
    rfl
  rw [marked, List.map_map]
  exact (List.Perm.of_eq unmarked).trans edges

/-- Runs of statements before and after a declaration, and a service. -/
def splitRuns : Program NodeId :=
  .block "root"
    [.loop "while" .whileHolds
      (.block "body"
        [.decision "if" (.block "then" [.result "r1"]) none,
          .statement "step" .compoundAssignment]),
    .statement "log" .expression,
    .typeDefinition "type",
    .selection "match"
      [("Some(x)", .block "some" []), ("None", .result "r2")],
    .result "r3",
    .container "service" .service
      (.block "members"
        [.container "f" .function (.statement "call" .expression),
          .statement "alone" .expression])]

theorem flow_perm_controlFlow_splitRuns :
    splitRuns.plainTree.validate
        (LayoutSettings.standard : LayoutSettings Rat).maxDepth = .ok () ∧
      ∃ outline, splitRuns.plainTree.outline 64 = .ok outline ∧
        outline.flow.1.Perm outline.controlFlow := by
  have accepted : splitRuns.plainTree.validate
      (LayoutSettings.standard : LayoutSettings Rat).maxDepth = .ok () := by
    cbv
  obtain ⟨outline, isOutline, edges, -⟩ := flow_perm_controlFlow accepted
  exact ⟨accepted, outline, isOutline, edges⟩

end Flowchart
