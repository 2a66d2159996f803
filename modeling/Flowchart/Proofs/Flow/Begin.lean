import Flowchart.Proofs.Flow.Conduct

/-!
# Flow that begins by itself

Declarations, the members of services and the runs between declarations each
begin a flow.  Over the edges of a whole program, the flows that begin in it get
to exactly the nodes that the text of the program says.
-/

namespace Flowchart

open Diagram (Closed)

/-- From the nodes where flow starts, the edges lead to the nodes of a set and
no others. -/
structure Reaches (inside : List NodeId) (reached : NodeId → Prop)
    (edges : List Edge) (starts : List NodeId) : Prop where
  reachedInside : ∀ id, reached id → id ∈ inside
  edgesInside : ∀ edge ∈ edges,
    edge.source.node ∈ inside ∧ edge.target.node ∈ inside
  startsReached : ∀ start ∈ starts, reached start
  closed : Closed edges reached
  spreads : ∀ found : NodeId → Prop, Closed edges found →
    (∀ start ∈ starts, found start) → ∀ id, reached id → found id

namespace Reaches

variable {inside otherInside : List NodeId} {reached otherReached : NodeId → Prop}
  {edges otherEdges : List Edge} {starts otherStarts : List NodeId}

theorem of_iff (reaches : Reaches inside reached edges starts)
    (subset : inside ⊆ otherInside) (reachedIff : ∀ id, reached id ↔ otherReached id) :
    Reaches otherInside otherReached edges starts := by
  obtain rfl : reached = otherReached := funext fun id => propext (reachedIff id)
  exact { reaches with
    reachedInside := fun id isReached => subset (reaches.reachedInside id isReached)
    edgesInside := fun edge edgeIn =>
      (reaches.edgesInside edge edgeIn).imp (@subset _) (@subset _) }

/-- Where no flow starts, none gets anywhere. -/
theorem nowhere (edgesInside : ∀ edge ∈ edges,
      edge.source.node ∈ inside ∧ edge.target.node ∈ inside) :
    Reaches inside (fun _ => False) edges [] where
  reachedInside := fun _ => False.elim
  edgesInside := edgesInside
  startsReached := by simp
  closed := fun _ _ => False.elim
  spreads := fun _ _ _ _ => False.elim

/-- A node that flow starts at and that no edge leaves. -/
theorem single (id : NodeId) : Reaches [id] (· = id) [] [id] where
  reachedInside := by simp
  edgesInside := by simp
  startsReached := by simp
  closed := by simp [Closed]
  spreads := by
    rintro found - start _ rfl
    exact start _ (List.mem_singleton_self _)

/-- Two parts without edges between them. -/
theorem append (first : Reaches inside reached edges starts)
    (second : Reaches otherInside otherReached otherEdges otherStarts)
    (apart : inside.Disjoint otherInside) :
    Reaches (inside ++ otherInside) (fun id => reached id ∨ otherReached id)
      (edges ++ otherEdges) (starts ++ otherStarts) where
  reachedInside := by
    rintro id (isReached | isReached)
    · exact List.mem_append_left _ (first.reachedInside id isReached)
    · exact List.mem_append_right _ (second.reachedInside id isReached)
  edgesInside := by
    intro edge edgeIn
    simp only [List.mem_append]
    rcases List.mem_append.mp edgeIn with inFirst | inSecond
    · exact (first.edgesInside edge inFirst).imp .inl .inl
    · exact (second.edgesInside edge inSecond).imp .inr .inr
  startsReached := by
    intro start isStart
    rcases List.mem_append.mp isStart with inFirst | inSecond
    · exact .inl (first.startsReached start inFirst)
    · exact .inr (second.startsReached start inSecond)
  closed := by
    intro edge edgeIn source
    rcases List.mem_append.mp edgeIn with inFirst | inSecond
    · rcases source with source | source
      · exact .inl (first.closed edge inFirst source)
      · exact absurd (second.reachedInside _ source)
          (apart (first.edgesInside edge inFirst).1)
    · rcases source with source | source
      · exact absurd (second.edgesInside edge inSecond).1
          (apart (first.reachedInside _ source))
      · exact .inr (second.closed edge inSecond source)
  spreads := by
    rintro found closed fromStart id (isReached | isReached)
    · exact first.spreads found
        (fun edge edgeIn => closed edge (List.mem_append_left _ edgeIn))
        (fun start isStart => fromStart start (List.mem_append_left _ isStart))
        id isReached
    · exact second.spreads found
        (fun edge edgeIn => closed edge (List.mem_append_right _ edgeIn))
        (fun start isStart => fromStart start (List.mem_append_right _ isStart))
        id isReached

end Reaches

theorem Conducts.reaches {inside : List NodeId} {live : NodeId → Prop}
    {through hasExit : Prop} {wiring : Wiring}
    (conducts : Conducts inside live through hasExit wiring) :
    Reaches inside live wiring.startingAtEntry.edges
      wiring.startingAtEntry.starts := by
  obtain ⟨entry, isEntry, entryLive⟩ := conducts.entered
  have starts_eq : wiring.startingAtEntry.starts = [entry.1.node] := by
    simp [Wiring.startingAtEntry, conducts.noStart, isEntry]
  rw [starts_eq]
  exact {
    reachedInside := conducts.liveInside
    edgesInside := conducts.edgesInside
    startsReached := by simpa using entryLive
    closed := conducts.closed
    spreads := fun found closed start =>
      conducts.spreads found closed fun other isOther => by
        obtain rfl := Option.some.inj (isEntry.symm.trans isOther)
        exact start _ (List.mem_singleton_self _) }

namespace Program

/-- Flow that begins in a program reaches the node with this label, which has a
figure of its own. -/
def FlowReaches {L : Type} (inService : Bool) (program : Program L)
    (label : L) : Prop :=
  ∃ node, Reached inService program node ∧ node.isFilledBlock = false ∧
    node.label = label

namespace FlowReaches

variable {L : Type} {program : Program L} {label : L} {inService : Bool}

theorem mem_labels (reaches : FlowReaches inService program label) :
    label ∈ program.labels := by
  obtain ⟨node, reached, -, rfl⟩ := reaches
  exact mem_labels_of_mem_preorder reached.live.mem_preorder

/-- Without declarations, all flow comes from outside. -/
theorem iff_flowsTo (flowing : program.Flowing) :
    FlowReaches false program label ↔ program.FlowsTo label := by
  have notStranded : ∀ node, ¬ program.Stranded node := by
    rintro node ⟨own, body, serviceIn, -⟩
    exact absurd (flowing _ serviceIn) (by simp [tag, Tag.isDeclaration])
  constructor
  · rintro ⟨node, reached, isDrawn, rfl⟩
    exact ⟨node, reached.live, isDrawn, rfl⟩
  · rintro ⟨node, live, isDrawn, rfl⟩
    exact ⟨node, ⟨live, notStranded node, by simp⟩, isDrawn, rfl⟩

theorem iff_of_block {own : L} {members : List (Program L)}
    (filled : members ≠ []) (distinct : (block own members).labels.Nodup) :
    FlowReaches inService (block own members) label ↔
      ∃ earlier member later, members = earlier ++ member :: later ∧
        (inService = false → member.tag.isDeclaration = false →
          ∀ previous ∈ run earlier, previous.passes = true) ∧
        FlowReaches false member label := by
  have isFilled : (block own members).isFilledBlock = true := by
    cases members with
    | nil => exact absurd rfl filled
    | cons => rfl
  simp only [FlowReaches, Reached.iff_of_block filled distinct]
  constructor
  · rintro ⟨node, rfl | ⟨earlier, member, later, split, goes, reached⟩, isDrawn,
      rfl⟩
    · simp [isFilled] at isDrawn
    · exact ⟨earlier, member, later, split, goes, node, reached, isDrawn, rfl⟩
  · rintro ⟨earlier, member, later, split, goes, node, reached, isDrawn, rfl⟩
    exact ⟨node, .inr ⟨earlier, member, later, split, goes, reached⟩, isDrawn,
      rfl⟩

theorem iff_of_ne_block (notBlock : program.tag ≠ .block)
    (distinct : program.labels.Nodup) :
    FlowReaches false program label ↔
      label = program.label ∨ ∃ child ∈ program.children,
        FlowReaches (program.tag = .container .service) child label := by
  have hasFigure : program.isFilledBlock = false := by
    cases program with
    | block => exact absurd rfl notBlock
    | _ => rfl
  simp only [FlowReaches, Reached.iff_of_ne_block notBlock distinct]
  constructor
  · rintro ⟨node, rfl | ⟨child, childIn, reached⟩, isDrawn, rfl⟩
    · exact .inl rfl
    · exact .inr ⟨child, childIn, node, reached, isDrawn, rfl⟩
  · rintro (rfl | ⟨child, childIn, node, reached, isDrawn, rfl⟩)
    · exact ⟨program, .inl rfl, hasFigure, rfl⟩
    · exact ⟨node, .inr ⟨child, childIn, reached⟩, isDrawn, rfl⟩

end FlowReaches

/-! ## Members -/

theorem startingAtEntry_of_declaration {program : Program NodeId}
    (declared : program.tag.isDeclaration = true) :
    (program.wire false).startingAtEntry = (program.wire false).enclosed := by
  cases program with
  | container label kind body =>
      cases kind <;> simp [wire, Wiring.startingAtEntry, Wiring.enclosed,
        Wiring.function, Wiring.nothing]
  | typeDefinition label => rfl
  | _ => simp [tag, Tag.isDeclaration] at declared

/-- A flow starts at each member of a service. -/
theorem separate_eq (members : List (Program NodeId)) :
    (Wiring.separate (wireMembers members)).edges =
        members.flatMap (fun member => member.flow.1) ∧
      (Wiring.separate (wireMembers members)).starts =
        members.flatMap fun member => member.flow.2 := by
  have generalized : ∀ before : Wiring,
      ((wireMembers members).foldl
        (fun before member =>
          let declared := if member.1.isDeclaration then [member.2.1] else []
          (before.beside { Wiring.nothing with starts := declared }).beside
            member.2.2.startingAtEntry) before).edges =
        before.edges ++ members.flatMap (fun member => member.flow.1) ∧
      ((wireMembers members).foldl
        (fun before member =>
          let declared := if member.1.isDeclaration then [member.2.1] else []
          (before.beside { Wiring.nothing with starts := declared }).beside
            member.2.2.startingAtEntry) before).starts =
        before.starts ++ members.flatMap (fun member => member.flow.2) := by
    induction members with
    | nil => simp [wireMembers]
    | cons member rest ih =>
        intro before
        rw [wireMembers, List.foldl_cons]
        obtain ⟨edgesEq, startsEq⟩ := ih _
        rw [edgesEq, startsEq]
        simp [Wiring.beside, Wiring.nothing, flow]
  simpa [Wiring.separate, Wiring.nothing] using generalized .nothing

/-- Members with no edges between them. -/
theorem reaches_members {members : List (Program NodeId)}
    (distinct : (members.flatMap labels).Nodup)
    (each : ∀ member ∈ members, Reaches member.labels (FlowReaches false member)
      member.flow.1 member.flow.2) :
    Reaches (members.flatMap labels)
      (fun id => ∃ member ∈ members, FlowReaches false member id)
      (members.flatMap fun member => member.flow.1)
      (members.flatMap fun member => member.flow.2) := by
  induction members with
  | nil =>
      have nowhere : Reaches [] (fun _ => False) [] [] :=
        Reaches.nowhere (by simp)
      exact nowhere.of_iff (by simp) (by simp)
  | cons member rest ih =>
      rw [List.flatMap_cons, List.nodup_append] at distinct
      obtain ⟨-, restNodup, apart⟩ := distinct
      have restReaches := ih restNodup fun other otherIn =>
        each other (List.mem_cons_of_mem _ otherIn)
      have disjoint : member.labels.Disjoint (rest.flatMap labels) :=
        fun id idIn idInRest => apart id idIn id idInRest rfl
      exact ((each member List.mem_cons_self).append restReaches disjoint).of_iff
        (by simp) (by simp)

/-- Flow that begins in the members of a block, not of a service, reaches the
node with a label; the members come after earlier ones. -/
def RunsReach (earlier members : List (Program NodeId)) (id : NodeId) : Prop :=
  ∃ before member after, members = before ++ member :: after ∧
    (member.tag.isDeclaration = false →
      ∀ previous ∈ run (earlier ++ before), previous.passes = true) ∧
    FlowReaches false member id

theorem runsReach_cons {earlier rest : List (Program NodeId)}
    {first : Program NodeId} {id : NodeId} :
    RunsReach earlier (first :: rest) id ↔
      ((first.tag.isDeclaration = false →
          ∀ previous ∈ run earlier, previous.passes = true) ∧
        FlowReaches false first id) ∨
      RunsReach (earlier ++ [first]) rest id := by
  constructor
  · rintro ⟨before, member, after, split, goes, reaches⟩
    cases before with
    | nil =>
        obtain ⟨rfl, rfl⟩ : first = member ∧ rest = after := by simpa using split
        exact .inl ⟨by simpa using goes, reaches⟩
    | cons head before =>
        obtain ⟨rfl, rfl⟩ : first = head ∧ rest = before ++ member :: after := by
          simpa using split
        exact .inr ⟨before, member, after, rfl, by simpa using goes, reaches⟩
  · rintro (⟨goes, reaches⟩ | ⟨before, member, after, rfl, goes, reaches⟩)
    · exact ⟨[], first, rest, rfl, by simpa using goes, reaches⟩
    · exact ⟨first :: before, member, after, rfl, by simpa using goes, reaches⟩

theorem run_snoc {L : Type} (earlier : List (Program L)) (last : Program L) :
    run (earlier ++ [last]) =
      if last.tag.isDeclaration then [] else last :: run earlier := by
  rw [run, List.reverse_append, List.reverse_singleton, List.singleton_append,
    List.takeWhile_cons]
  cases last.tag.isDeclaration <;> rfl

theorem reaches_chain {members : List (Program NodeId)}
    (distinct : (members.flatMap labels).Nodup)
    (each : ∀ member ∈ members, member.IsConducted) :
    Reaches (members.flatMap labels) (ChainFlowsTo members)
      (Wiring.chain (members.map (wire false))).startingAtEntry.edges
      (Wiring.chain (members.map (wire false))).startingAtEntry.starts := by
  cases members with
  | nil =>
      have nowhere : Reaches [] (fun _ => False)
          (Wiring.chain []).startingAtEntry.edges
          (Wiring.chain []).startingAtEntry.starts :=
        Reaches.nowhere (by simp [Wiring.chain, Wiring.startingAtEntry,
          Wiring.enclosed, Wiring.nothing])
      exact nowhere.of_iff (by simp) (by simp [ChainFlowsTo])
  | cons first rest => exact (conducts_chain (by simp) distinct each).reaches

/-- A run beside what comes before it. -/
theorem reaches_beside_run {before : Wiring} {inside : List NodeId}
    {reached : NodeId → Prop} {members : List (Program NodeId)}
    (beforeReaches : Reaches inside reached before.edges before.starts)
    (distinct : (inside ++ members.flatMap labels).Nodup)
    (conducted : ∀ member ∈ members, member.IsConducted) :
    Reaches (inside ++ members.flatMap labels)
      (fun id => reached id ∨ ChainFlowsTo members id)
      (before.beside (Wiring.chain
        (members.map (wire false))).startingAtEntry).edges
      (before.beside (Wiring.chain
        (members.map (wire false))).startingAtEntry).starts := by
  obtain ⟨-, nodup, apart⟩ := List.nodup_append.mp distinct
  exact beforeReaches.append (reaches_chain nodup conducted)
    fun id idIn idInMembers => apart id idIn id idInMembers rfl

/-- Each declaration ends the run before it, and a flow starts at every run and
every declaration.  `members` is the run that the next member may continue. -/
theorem reaches_runs {rest members earlier : List (Program NodeId)}
    {before : Wiring} {inside : List NodeId} {reached : NodeId → Prop}
    (beforeReaches : Reaches inside reached before.edges before.starts)
    (isRun : run earlier = members.reverse)
    (distinct : (inside ++ members.flatMap labels ++
      rest.flatMap labels).Nodup)
    (conducted : ∀ member ∈ members, member.IsConducted)
    (declared : ∀ member ∈ rest, member.tag.isDeclaration = true →
      Reaches member.labels (FlowReaches false member) member.flow.1
        member.flow.2)
    (flowing : ∀ member ∈ rest, member.tag.isDeclaration = false →
      member.Flowing) :
    Reaches (inside ++ members.flatMap labels ++ rest.flatMap labels)
      (fun id => reached id ∨ ChainFlowsTo members id ∨
        RunsReach earlier rest id)
      (Wiring.runs before (members.map (wire false)) (wireMembers rest)).edges
      (Wiring.runs before (members.map (wire false))
        (wireMembers rest)).starts := by
  induction rest generalizing before members earlier inside reached with
  | nil =>
      rw [List.flatMap_nil, List.append_nil] at distinct
      exact (reaches_beside_run beforeReaches distinct conducted).of_iff
        (by simp) (by simp [RunsReach])
  | cons member rest ih =>
      rw [List.flatMap_cons, ← List.append_assoc] at distinct ⊢
      have laterDeclared := fun other otherIn =>
        declared other (List.mem_cons_of_mem _ otherIn)
      have laterFlowing := fun other otherIn =>
        flowing other (List.mem_cons_of_mem _ otherIn)
      have soFar := (List.nodup_append.mp distinct).1
      have memberNodup := (List.nodup_append.mp soFar).2.1
      rw [wireMembers, Wiring.runs]
      by_cases isDeclared : member.tag.isDeclaration = true
      · -- The run ends here, and the declaration lies apart from it.
        rw [if_pos isDeclared]
        obtain ⟨runSoFar, -, memberApart⟩ := List.nodup_append.mp soFar
        have runReaches := reaches_beside_run beforeReaches runSoFar conducted
        have allReaches := runReaches.append
          (declared member List.mem_cons_self isDeclared)
          fun id idIn idInMember => memberApart id idIn id idInMember rfl
        have later := @ih [] (earlier ++ [member])
          (((before.beside (Wiring.chain
            (members.map (wire false))).startingAtEntry).beside
              { Wiring.nothing with starts := [member.label] }).beside
                (member.wire false).enclosed)
          (inside ++ members.flatMap labels ++ member.labels) _
          (by
            simpa [Wiring.beside, Wiring.nothing, flow, isDeclared,
              startingAtEntry_of_declaration] using allReaches)
          (by simp [run_snoc, isDeclared]) (by simpa using distinct) (by simp)
          laterDeclared laterFlowing
        refine later.of_iff (by simp) fun id => ?_
        rw [runsReach_cons]
        simp [isDeclared, ChainFlowsTo, or_assoc]
      · -- The member continues the run.
        have notDeclared : member.tag.isDeclaration = false := by
          simpa using isDeclared
        have memberFlowing := flowing member List.mem_cons_self notDeclared
        rw [if_neg isDeclared]
        have later := @ih (members ++ [member]) (earlier ++ [member]) _ _ _
          beforeReaches
          (by simp [run_snoc, notDeclared, isRun]) (by simpa using distinct)
          (fun other otherIn => by
            rcases List.mem_append.mp otherIn with inRun | isMember
            · exact conducted other inRun
            · rw [List.mem_singleton.mp isMember]
              exact memberFlowing.isConducted memberNodup)
          laterDeclared laterFlowing
        rw [List.map_append, List.map_singleton] at later
        refine later.of_iff (by simp) fun id => ?_
        rw [runsReach_cons, chainFlowsTo_snoc,
          FlowReaches.iff_flowsTo memberFlowing, isRun]
        simp [notDeclared, or_assoc]

theorem runs_entry (before : Wiring) (members : List Wiring)
    (rest : List (Tag × NodeId × Wiring)) :
    (Wiring.runs before members rest).entry = none := by
  induction rest generalizing before members with
  | nil => rfl
  | cons entry rest ih =>
      obtain ⟨tag, id, wiring⟩ := entry
      rw [Wiring.runs]
      split
      · exact ih _ _
      · exact ih _ _

/-! ## Every program -/

/-- All flow of a program, and all flow of it as the body of a service. -/
structure AllReached (program : Program NodeId) : Prop where
  alone : Reaches program.labels (FlowReaches false program) program.flow.1
    program.flow.2
  asBody : Reaches program.labels (FlowReaches true program)
    (program.wire true).edges (program.wire true).starts

theorem Flowing.reaches {program : Program NodeId} (flowing : program.Flowing)
    (distinct : program.labels.Nodup) :
    Reaches program.labels (FlowReaches false program) program.flow.1
      program.flow.2 := by
  have reaches := (flowing.isConducted distinct).reaches
  simpa [flow, flowing.root] using
    reaches.of_iff (by simp) fun id => (FlowReaches.iff_flowsTo flowing).symm

theorem allReached_block {label : NodeId} {members : List (Program NodeId)}
    (filled : members ≠ []) (distinct : (block label members).labels.Nodup)
    (declared : ∀ member ∈ members, member.tag.isDeclaration = true →
      member.AllReached)
    (flowing : ∀ member ∈ members, member.tag.isDeclaration = false →
      member.Flowing) : (block label members).AllReached := by
  have memberNodup : ∀ member ∈ members, member.labels.Nodup :=
    fun member memberIn => labels_nodup_of_child distinct memberIn
  have membersNodup : (members.flatMap labels).Nodup := by
    rw [labels_eq] at distinct
    exact distinct.of_cons
  have inBlock : members.flatMap labels ⊆ (block label members).labels := by
    rw [labels_eq]
    exact List.subset_cons_self _ _
  constructor
  case alone =>
    by_cases anyDeclared :
        members.any (fun member => member.tag.isDeclaration) = true
    · have isWire := wire_block false label filled
      rw [anyDeclared] at isWire
      have nowhere : Reaches [] (fun _ => False) Wiring.nothing.edges
          Wiring.nothing.starts := Reaches.nowhere (by simp [Wiring.nothing])
      have reaches := @reaches_runs members [] [] _ _ _ nowhere rfl
        (by simpa using membersNodup) (by simp)
        (fun member memberIn isDeclared =>
          (declared member memberIn isDeclared).alone) flowing
      have flow_eq : (block label members).flow =
          ((Wiring.runs .nothing [] (wireMembers members)).edges,
            (Wiring.runs .nothing [] (wireMembers members)).starts) := by
        simp [flow, isWire, Wiring.startingAtEntry, Wiring.enclosed, runs_entry,
          tag, Tag.isDeclaration]
      rw [flow_eq]
      refine reaches.of_iff (by simpa using inBlock) fun id => ?_
      rw [FlowReaches.iff_of_block filled distinct]
      simp [RunsReach, ChainFlowsTo]
    · refine Flowing.reaches (.of_children rfl fun member memberIn => ?_)
        distinct
      refine flowing member memberIn ?_
      simp only [List.any_eq_true, not_exists, not_and,
        Bool.not_eq_true] at anyDeclared
      exact anyDeclared member memberIn
  case asBody =>
    have reaches := reaches_members membersNodup fun member memberIn => by
      by_cases isDeclared : member.tag.isDeclaration = true
      · exact (declared member memberIn isDeclared).alone
      · exact (flowing member memberIn (by simpa using isDeclared)).reaches
          (memberNodup member memberIn)
    obtain ⟨edgesEq, startsEq⟩ := separate_eq members
    rw [wire_block true label filled, if_pos rfl, edgesEq, startsEq]
    refine reaches.of_iff inBlock fun id => ?_
    rw [FlowReaches.iff_of_block filled distinct]
    constructor
    · rintro ⟨member, memberIn, reached⟩
      obtain ⟨earlier, later, rfl⟩ := List.append_of_mem memberIn
      exact ⟨earlier, member, later, rfl, by simp, reached⟩
    · rintro ⟨earlier, member, later, rfl, -, reached⟩
      exact ⟨member, by simp, reached⟩

/-- A construct that is the body of a service and no block begins no flow. -/
theorem reaches_lone_body {program : Program NodeId}
    (notFilled : program.isFilledBlock = false)
    (notService : program.tag ≠ .container .service)
    (noStart : (program.wire true).starts = [])
    (edgesInside : ∀ edge ∈ (program.wire true).edges,
      edge.source.node ∈ program.labels ∧ edge.target.node ∈ program.labels) :
    Reaches program.labels (FlowReaches true program)
      (program.wire true).edges (program.wire true).starts := by
  rw [noStart]
  refine (Reaches.nowhere edgesInside).of_iff (List.Subset.refl _) fun id => ?_
  refine ⟨False.elim, ?_⟩
  rintro ⟨node, reached, -, -⟩
  exact Reached.not_of_body notFilled notService reached

theorem wire_of_not_filled {program : Program NodeId}
    (notFilled : program.isFilledBlock = false) :
    program.wire true = program.wire false := by
  cases program with
  | block label members =>
      cases members with
      | nil => rfl
      | cons => simp [isFilledBlock] at notFilled
  | decision label consequent alternative => cases alternative <;> rfl
  | container label kind body => cases kind <;> rfl
  | _ => rfl

theorem Flowing.allReached {program : Program NodeId} (flowing : program.Flowing)
    (distinct : program.labels.Nodup) : program.AllReached := by
  cases isFilled : program.isFilledBlock with
  | true =>
      cases program with
      | block label members =>
          have filled : members ≠ [] := by
            rintro rfl
            simp [isFilledBlock] at isFilled
          refine allReached_block filled distinct
            (fun member memberIn isDeclared => ?_)
            fun member memberIn _ => flowing.child memberIn
          simp [(flowing.child memberIn).root] at isDeclared
      | _ => simp [isFilledBlock] at isFilled
  | false =>
      have conducted := flowing.isConducted distinct
      refine ⟨flowing.reaches distinct, reaches_lone_body isFilled ?_ ?_ ?_⟩
      · intro isService
        have notDeclared := flowing.root
        simp [isService, Tag.isDeclaration] at notDeclared
      · rw [wire_of_not_filled isFilled]
        exact conducted.noStart
      · rw [wire_of_not_filled isFilled]
        exact conducted.edgesInside

theorem allReached_function {label : NodeId} {body : Program NodeId}
    (flowing : body.Flowing)
    (distinct : (container label .function body).labels.Nodup) :
    (container label .function body).AllReached := by
  have bodyIn : body ∈ (container label .function body).children :=
    List.mem_singleton_self _
  have bodyConducted : body.IsConducted :=
    flowing.isConducted (labels_nodup_of_child distinct bodyIn)
  have each : ∀ child ∈ (container label .function body).children,
      child.IsConducted := by
    intro child childIn
    rw [List.mem_singleton.mp childIn]
    exact bodyConducted
  have fans : Fans label [body.wire false]
      ((container label .function body).wire false).edges :=
    Fans.branch ⟨⟨label, .start⟩, .sequential, none⟩ (body.wire false)
      ⟨label, .exit⟩ (.container .function) rfl rfl
  have flow_eq : (container label .function body).flow =
      (((container label .function body).wire false).edges, [label]) := by
    simp [flow, wire, Wiring.function, Wiring.startingAtEntry, Wiring.enclosed,
      Wiring.nothing, bodyConducted.noStart, tag, Tag.isDeclaration,
      Program.label]
  have flowReaches : ∀ id, FlowReaches false (container label .function body) id ↔
      id = label ∨ ∃ child ∈ (container label .function body).children,
        child.FlowsTo id := by
    intro id
    rw [FlowReaches.iff_of_ne_block (by simp [tag]) distinct]
    simp [children, tag, FlowReaches.iff_flowsTo flowing, Program.label]
  constructor
  case alone =>
    rw [flow_eq]
    exact {
      reachedInside := fun id reaches => reaches.mem_labels
      edgesInside := fans_inside each fans
      startsReached := by simp [flowReaches]
      closed := fun edge edgeIn source => (flowReaches _).mpr
        (fans_closed distinct each fans edge edgeIn ((flowReaches _).mp source))
      spreads := fun found closed start id reaches =>
        fans_spreads each fans closed (start _ (List.mem_singleton_self _))
          ((flowReaches id).mp reaches) }
  case asBody =>
    exact reaches_lone_body rfl (by simp [tag]) bodyConducted.noStart
      (fans_inside each fans)

theorem allReached_service {label : NodeId} {body : Program NodeId}
    (bodyReached : body.AllReached)
    (distinct : (container label .service body).labels.Nodup) :
    (container label .service body).AllReached := by
  have bodyIn : body ∈ (container label .service body).children :=
    List.mem_singleton_self _
  have inService : body.labels ⊆ (container label .service body).labels :=
    fun id idIn => mem_labels_of_child bodyIn idIn
  constructor
  case alone =>
    have flow_eq : (container label .service body).flow =
        ([] ++ (body.wire true).edges, [label] ++ (body.wire true).starts) := by
      simp [flow, wire, Wiring.startingAtEntry, Wiring.enclosed, tag,
        Tag.isDeclaration, Program.label]
    rw [flow_eq]
    have apart : [label].Disjoint body.labels :=
      List.singleton_disjoint.mpr (label_notMem_of_child distinct bodyIn)
    refine ((Reaches.single label).append bodyReached.asBody apart).of_iff ?_
      fun id => ?_
    · exact List.append_subset.mpr
        ⟨List.cons_subset.mpr ⟨label_mem_labels _, List.nil_subset _⟩, inService⟩
    · rw [FlowReaches.iff_of_ne_block (by simp [tag]) distinct]
      simp [children, tag, Program.label]
  case asBody =>
    refine bodyReached.asBody.of_iff inService fun id => ?_
    simp only [FlowReaches, Reached.iff_of_service distinct]

theorem Outer.allReached {program : Program NodeId} (outer : program.Outer)
    (distinct : program.labels.Nodup) : program.AllReached := by
  induction outer with
  | typeDefinition label =>
      refine ⟨(Reaches.single label).of_iff
        (List.cons_subset.mpr ⟨label_mem_labels _, List.nil_subset _⟩)
        fun id => ?_, reaches_lone_body rfl (by simp [tag]) rfl
          (by simp [wire, Wiring.nothing])⟩
      rw [FlowReaches.iff_of_ne_block (by simp [tag]) distinct]
      simp [children, Program.label]
  | function label flowing => exact allReached_function flowing distinct
  | @service label body _ ih =>
      exact allReached_service
        (ih (labels_nodup_of_child distinct (List.mem_singleton_self _)))
        distinct
  | @block label members declared flowing ih =>
      by_cases filled : members = []
      · subst filled
        exact Flowing.allReached (.of_children rfl (by simp [children])) distinct
      · exact allReached_block filled distinct
          (fun member memberIn isDeclared => ih member memberIn isDeclared
            (labels_nodup_of_child distinct memberIn)) flowing
  | flowing flowing => exact flowing.allReached distinct

end Program

end Flowchart
