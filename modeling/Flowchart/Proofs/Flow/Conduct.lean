import Flowchart.Diagram.Wiring
import Flowchart.Proofs.Flow.Liveness
import Flowchart.Proofs.Flow.Search
import Flowchart.Proofs.Tree.Placement

/-!
# Flow through wired constructs

Where flow comes to a construct in which nothing is declared, the edges inside
it lead to exactly its live nodes, and to an exit if the construct passes flow
on.  This is put together the way the wiring is.
-/

namespace Flowchart

open Diagram (Closed)

namespace Wiring

variable {first next : Wiring}

theorem entry_followedBy (entered : first.entry.isSome = true) :
    (first.followedBy next).entry = first.entry := by
  obtain ⟨entry, isEntry⟩ := Option.isSome_iff_exists.mp entered
  rw [followedBy, isEntry]
  rfl

theorem exits_followedBy (entered : next.entry.isSome = true) :
    (first.followedBy next).exits = next.exits := by
  rw [followedBy, if_pos entered, List.nil_append]

end Wiring

/-- How a wiring conducts the flow that enters it: the identities inside the
construct, those that flow gets to, and whether it gets out again or an exit is
at least left open. -/
structure Conducts (inside : List NodeId) (live : NodeId → Prop)
    (through hasExit : Prop) (wiring : Wiring) : Prop where
  noStart : wiring.starts = []
  liveInside : ∀ id, live id → id ∈ inside
  edgesInside : ∀ edge ∈ wiring.edges,
    edge.source.node ∈ inside ∧ edge.target.node ∈ inside
  exitsInside : ∀ exit ∈ wiring.exits, exit.source.node ∈ inside
  entered : ∃ entry, wiring.entry = some entry ∧ live entry.1.node
  exits : wiring.exits ≠ [] ↔ hasExit
  closed : Closed wiring.edges live
  leaves : ∀ exit ∈ wiring.exits, live exit.source.node → through
  spreads : ∀ reached : NodeId → Prop, Closed wiring.edges reached →
    (∀ entry, wiring.entry = some entry → reached entry.1.node) →
    ∀ id, live id → reached id
  goesThrough : ∀ reached : NodeId → Prop, Closed wiring.edges reached →
    (∀ entry, wiring.entry = some entry → reached entry.1.node) →
    through → ∃ exit ∈ wiring.exits, reached exit.source.node

namespace Conducts

variable {inside nextInside : List NodeId} {live nextLive : NodeId → Prop}
  {through nextThrough hasExit nextHasExit : Prop} {wiring next : Wiring}

theorem of_iff {otherInside : List NodeId} {otherLive : NodeId → Prop}
    {otherThrough otherHasExit : Prop}
    (conducts : Conducts inside live through hasExit wiring)
    (insideEq : inside = otherInside) (liveIff : ∀ id, live id ↔ otherLive id)
    (throughIff : through ↔ otherThrough)
    (hasExitIff : hasExit ↔ otherHasExit) :
    Conducts otherInside otherLive otherThrough otherHasExit wiring := by
  obtain rfl : live = otherLive := funext fun id => propext (liveIff id)
  rwa [← insideEq, ← throughIff, ← hasExitIff]

/-- A node without children that flow passes. -/
theorem passing (id : NodeId) (tag : Tag) :
    Conducts [id] (· = id) True True (.passing id tag) where
  noStart := rfl
  liveInside := by simp
  edgesInside := by simp [Wiring.passing, Wiring.nothing]
  exitsInside := by simp [Wiring.passing]
  entered := ⟨_, rfl, rfl⟩
  exits := by simp [Wiring.passing]
  closed := by simp [Closed, Wiring.passing, Wiring.nothing]
  leaves := fun _ _ _ => trivial
  spreads := by
    rintro reached - atEntry _ rfl
    exact atEntry _ rfl
  goesThrough := fun reached _ atEntry _ =>
    ⟨_, List.mem_singleton_self _, atEntry _ rfl⟩

/-- A node without children where flow ends. -/
theorem ending (id : NodeId) (tag : Tag) :
    Conducts [id] (· = id) False False
      { Wiring.passing id tag with exits := [] } where
  noStart := rfl
  liveInside := by simp
  edgesInside := by simp [Wiring.passing, Wiring.nothing]
  exitsInside := by simp
  entered := ⟨_, rfl, rfl⟩
  exits := by simp
  closed := by simp [Closed, Wiring.passing, Wiring.nothing]
  leaves := by simp
  spreads := by
    rintro reached - atEntry _ rfl
    exact atEntry _ rfl
  goesThrough := fun _ _ _ => False.elim

theorem mem_followedBy_edges {first next : Wiring} {edge : Edge} :
    edge ∈ (first.followedBy next).edges ↔
      edge ∈ first.edges ∨ edge ∈ next.edges ∨
        ∃ exit ∈ first.exits, edge ∈ exit.connectTo next.entry := by
  simp [Wiring.followedBy]

/-! ### One construct after the other -/

section

variable {reached : NodeId → Prop}

theorem mem_edges_followedBy {entry : Endpoint × Tag}
    (isEntry : next.entry = some entry) {edge : Edge} :
    edge ∈ (wiring.followedBy next).edges ↔
      edge ∈ wiring.edges ∨ edge ∈ next.edges ∨
        ∃ exit ∈ wiring.exits, edge = exit.connect entry.1 entry.2 := by
  rw [mem_followedBy_edges, isEntry]
  simp [OpenExit.connectTo]

theorem isSome_entry (conducts : Conducts inside live through hasExit wiring) :
    wiring.entry.isSome = true :=
  have ⟨_, isEntry, _⟩ := conducts.entered
  Option.isSome_of_eq_some isEntry

theorem closed_of_followedBy (closed : Closed (wiring.followedBy next).edges reached) :
    Closed wiring.edges reached ∧ Closed next.edges reached :=
  ⟨fun edge edgeIn => closed edge (mem_followedBy_edges.mpr (.inl edgeIn)),
    fun edge edgeIn => closed edge (mem_followedBy_edges.mpr (.inr (.inl edgeIn)))⟩

/-- What flow reaches if it goes through the first construct. -/
theorem reaches_next (first : Conducts inside live through hasExit wiring)
    (closed : Closed (wiring.followedBy next).edges reached)
    (atEntry : ∀ entry, wiring.entry = some entry → reached entry.1.node)
    (goes : through) :
    ∀ entry, next.entry = some entry → reached entry.1.node := by
  intro entry isEntry
  obtain ⟨exit, exitIn, exitReached⟩ :=
    first.goesThrough reached (closed_of_followedBy closed).1 atEntry goes
  exact closed (exit.connect entry.1 entry.2)
    ((mem_edges_followedBy isEntry).mpr (.inr (.inr ⟨exit, exitIn, rfl⟩)))
    exitReached

/-- Flow gets from the first construct into the next only through the first. -/
theorem closed_followedBy (first : Conducts inside live through hasExit wiring)
    (second : Conducts nextInside nextLive nextThrough nextHasExit next)
    (apart : inside.Disjoint nextInside) :
    Closed (wiring.followedBy next).edges
      fun id => live id ∨ through ∧ nextLive id := by
  obtain ⟨entry, isEntry, entryLive⟩ := second.entered
  intro edge edgeIn source
  rcases (mem_edges_followedBy isEntry).mp edgeIn with inFirst | inNext |
    ⟨exit, exitIn, rfl⟩
  · rcases source with isLive | ⟨-, isLive⟩
    · exact .inl (first.closed edge inFirst isLive)
    · exact absurd (second.liveInside _ isLive)
        (apart (first.edgesInside edge inFirst).1)
  · rcases source with isLive | ⟨goes, isLive⟩
    · exact absurd (second.edgesInside edge inNext).1
        (apart (first.liveInside _ isLive))
    · exact .inr ⟨goes, second.closed edge inNext isLive⟩
  · rcases source with isLive | ⟨goes, -⟩
    · exact .inr ⟨first.leaves exit exitIn isLive, entryLive⟩
    · exact .inr ⟨goes, entryLive⟩

end

theorem followedBy (first : Conducts inside live through hasExit wiring)
    (second : Conducts nextInside nextLive nextThrough nextHasExit next)
    (apart : inside.Disjoint nextInside) :
    Conducts (inside ++ nextInside)
      (fun id => live id ∨ through ∧ nextLive id) (through ∧ nextThrough)
      nextHasExit (wiring.followedBy next) where
  noStart := by simp [Wiring.followedBy, first.noStart, second.noStart]
  liveInside := by
    rintro id (isLive | ⟨-, isLive⟩)
    · exact List.mem_append_left _ (first.liveInside id isLive)
    · exact List.mem_append_right _ (second.liveInside id isLive)
  edgesInside := by
    intro edge edgeIn
    obtain ⟨entry, isEntry, entryLive⟩ := second.entered
    simp only [List.mem_append]
    rcases (mem_edges_followedBy isEntry).mp edgeIn with inFirst | inNext |
      ⟨exit, exitIn, rfl⟩
    · exact (first.edgesInside edge inFirst).imp .inl .inl
    · exact (second.edgesInside edge inNext).imp .inr .inr
    · exact ⟨.inl (first.exitsInside exit exitIn),
        .inr (second.liveInside _ entryLive)⟩
  exitsInside := by
    rw [Wiring.exits_followedBy second.isSome_entry]
    exact fun exit exitIn =>
      List.mem_append_right _ (second.exitsInside exit exitIn)
  entered := by
    obtain ⟨entry, isEntry, entryLive⟩ := first.entered
    exact ⟨entry, (Wiring.entry_followedBy first.isSome_entry).trans isEntry,
      .inl entryLive⟩
  exits := by
    rw [Wiring.exits_followedBy second.isSome_entry]
    exact second.exits
  closed := first.closed_followedBy second apart
  leaves := by
    rw [Wiring.exits_followedBy second.isSome_entry]
    rintro exit exitIn (isLive | ⟨goes, isLive⟩)
    · exact absurd (second.exitsInside exit exitIn)
        (apart (first.liveInside _ isLive))
    · exact ⟨goes, second.leaves exit exitIn isLive⟩
  spreads := by
    rw [Wiring.entry_followedBy first.isSome_entry]
    rintro reached closed atEntry id (isLive | ⟨goes, isLive⟩)
    · exact first.spreads reached (closed_of_followedBy closed).1 atEntry id isLive
    · exact second.spreads reached (closed_of_followedBy closed).2
        (first.reaches_next closed atEntry goes) id isLive
  goesThrough := by
    rw [Wiring.entry_followedBy first.isSome_entry,
      Wiring.exits_followedBy second.isSome_entry]
    rintro reached closed atEntry ⟨goes, goesNext⟩
    exact second.goesThrough reached (closed_of_followedBy closed).2
      (first.reaches_next closed atEntry goes) goesNext

end Conducts

/-! ## Constructs with branches -/

/-- The edges of a construct whose own node lies before and after its branches:
those inside the branches, those into them, and those back to the node. -/
structure Fans (id : NodeId) (branches : List Wiring) (edges : List Edge) :
    Prop where
  only : ∀ edge ∈ edges,
    (∃ branch ∈ branches, edge ∈ branch.edges) ∨
      (edge.source.node = id ∧ ∃ branch ∈ branches, ∃ entry,
        branch.entry = some entry ∧ edge.target = entry.1) ∨
      (edge.target.node = id ∧ (edge.source.node = id ∨
        ∃ branch ∈ branches, ∃ exit ∈ branch.exits, edge.source = exit.source))
  inner : ∀ branch ∈ branches, ∀ edge ∈ branch.edges, edge ∈ edges
  enters : ∀ branch ∈ branches, ∀ entry, branch.entry = some entry →
    ∃ edge ∈ edges, edge.source.node = id ∧ edge.target = entry.1

namespace Fans

variable {id : NodeId}

theorem append {branches others : List Wiring} {edges otherEdges : List Edge}
    (first : Fans id branches edges) (second : Fans id others otherEdges) :
    Fans id (branches ++ others) (edges ++ otherEdges) where
  only := by
    intro edge edgeIn
    rcases List.mem_append.mp edgeIn with inFirst | inSecond
    · rcases first.only edge inFirst with ⟨branch, branchIn, inBranch⟩ |
        ⟨source, branch, branchIn, enters⟩ | ⟨target, source⟩
      · exact .inl ⟨branch, List.mem_append_left _ branchIn, inBranch⟩
      · exact .inr (.inl ⟨source, branch, List.mem_append_left _ branchIn,
          enters⟩)
      · refine .inr (.inr ⟨target, source.imp_right ?_⟩)
        rintro ⟨branch, branchIn, leaves⟩
        exact ⟨branch, List.mem_append_left _ branchIn, leaves⟩
    · rcases second.only edge inSecond with ⟨branch, branchIn, inBranch⟩ |
        ⟨source, branch, branchIn, enters⟩ | ⟨target, source⟩
      · exact .inl ⟨branch, List.mem_append_right _ branchIn, inBranch⟩
      · exact .inr (.inl ⟨source, branch, List.mem_append_right _ branchIn,
          enters⟩)
      · refine .inr (.inr ⟨target, source.imp_right ?_⟩)
        rintro ⟨branch, branchIn, leaves⟩
        exact ⟨branch, List.mem_append_right _ branchIn, leaves⟩
  inner := by
    intro branch branchIn edge edgeIn
    rcases List.mem_append.mp branchIn with inFirst | inSecond
    · exact List.mem_append_left _ (first.inner branch inFirst edge edgeIn)
    · exact List.mem_append_right _ (second.inner branch inSecond edge edgeIn)
  enters := by
    intro branch branchIn entry isEntry
    rcases List.mem_append.mp branchIn with inFirst | inSecond
    · obtain ⟨edge, edgeIn, leads⟩ := first.enters branch inFirst entry isEntry
      exact ⟨edge, List.mem_append_left _ edgeIn, leads⟩
    · obtain ⟨edge, edgeIn, leads⟩ :=
        second.enters branch inSecond entry isEntry
      exact ⟨edge, List.mem_append_right _ edgeIn, leads⟩

/-- One branch with the exit that leads into it, closed at an anchor of the
node. -/
theorem branch (exit : OpenExit) (wiring : Wiring) (target : Endpoint)
    (tag : Tag) (fromNode : exit.source.node = id)
    (toNode : target.node = id) :
    Fans id [wiring]
      (wiring.edges ++ exit.connectTo wiring.entry ++
        wiring.close target tag) where
  only := by
    intro edge edgeIn
    rw [List.mem_append, List.mem_append] at edgeIn
    rcases edgeIn with (inside | enters) | closes
    · exact .inl ⟨wiring, List.mem_singleton_self _, inside⟩
    · cases isEntry : wiring.entry with
      | none => simp [isEntry, OpenExit.connectTo] at enters
      | some entry =>
          obtain rfl : edge = exit.connect entry.1 entry.2 := by
            simpa [isEntry, OpenExit.connectTo] using enters
          exact .inr (.inl ⟨fromNode, wiring, List.mem_singleton_self _, entry,
            isEntry, rfl⟩)
    · obtain ⟨open_, openIn, rfl⟩ := List.mem_map.mp closes
      exact .inr (.inr ⟨toNode, .inr ⟨wiring, List.mem_singleton_self _, open_,
        openIn, rfl⟩⟩)
  inner := by
    intro branch branchIn edge edgeIn
    obtain rfl := List.mem_singleton.mp branchIn
    simp [edgeIn]
  enters := by
    intro branch branchIn entry isEntry
    obtain rfl := List.mem_singleton.mp branchIn
    exact ⟨exit.connect entry.1 entry.2,
      by simp [isEntry, OpenExit.connectTo], fromNode, rfl⟩

theorem branchEdges (id : NodeId) (tag : Tag) (exit : OpenExit)
    (wiring : Wiring) (fromNode : exit.source.node = id) :
    Fans id [wiring] (Wiring.branchEdges id tag exit wiring) :=
  branch exit wiring ⟨id, .merge⟩ tag fromNode rfl

/-- An edge of the node to itself, such as the one past the consequent of a
decision without alternative. -/
theorem bypass {edge : Edge} (fromNode : edge.source.node = id)
    (toNode : edge.target.node = id) : Fans id [] [edge] where
  only := by
    intro other otherIn
    obtain rfl := List.mem_singleton.mp otherIn
    exact .inr (.inr ⟨toNode, .inl fromNode⟩)
  inner := by simp
  enters := by simp

end Fans

namespace Program

/-- The wiring of a construct conducts flow as its text says. -/
def IsConducted (program : Program NodeId) : Prop :=
  Conducts program.labels program.FlowsTo (program.passes = true)
    (program.hasExit = true) (program.wire false)

section Branches

variable {program : Program NodeId} {edges : List Edge}
  (distinct : program.labels.Nodup)
  (each : ∀ child ∈ program.children, child.IsConducted)
  (fans : Fans program.label (program.children.map (wire false)) edges)

include each fans

theorem fans_inside : ∀ edge ∈ edges,
    edge.source.node ∈ program.labels ∧ edge.target.node ∈ program.labels := by
  intro edge edgeIn
  rcases fans.only edge edgeIn with ⟨_, branchIn, inside⟩ |
    ⟨source, _, branchIn, entry, isEntry, target⟩ | ⟨target, source⟩
  · obtain ⟨child, childIn, rfl⟩ := List.mem_map.mp branchIn
    exact ((each child childIn).edgesInside edge inside).imp
      (mem_labels_of_child childIn) (mem_labels_of_child childIn)
  · obtain ⟨child, childIn, rfl⟩ := List.mem_map.mp branchIn
    obtain ⟨other, isOther, live⟩ := (each child childIn).entered
    obtain rfl := Option.some.inj (isOther.symm.trans isEntry)
    rw [source, target]
    exact ⟨program.label_mem_labels,
      mem_labels_of_child childIn live.mem_labels⟩
  · rw [target]
    refine ⟨?_, program.label_mem_labels⟩
    rcases source with source | ⟨_, branchIn, exit, exitIn, source⟩
    · rw [source]
      exact program.label_mem_labels
    · obtain ⟨child, childIn, rfl⟩ := List.mem_map.mp branchIn
      rw [source]
      exact mem_labels_of_child childIn
        ((each child childIn).exitsInside exit exitIn)

include distinct in
theorem fans_closed : Closed edges fun id =>
    id = program.label ∨ ∃ child ∈ program.children, child.FlowsTo id := by
  intro edge edgeIn source
  rcases fans.only edge edgeIn with ⟨_, branchIn, inside⟩ |
    ⟨-, _, branchIn, entry, isEntry, target⟩ | ⟨target, -⟩
  · obtain ⟨child, childIn, rfl⟩ := List.mem_map.mp branchIn
    have sourceIn := ((each child childIn).edgesInside edge inside).1
    rcases source with source | ⟨other, otherIn, live⟩
    · rw [source] at sourceIn
      exact absurd sourceIn (label_notMem_of_child distinct childIn)
    · obtain rfl := child_eq_of_mem_labels distinct otherIn childIn
        live.mem_labels sourceIn
      exact .inr ⟨other, childIn, (each other childIn).closed edge inside live⟩
  · obtain ⟨child, childIn, rfl⟩ := List.mem_map.mp branchIn
    obtain ⟨other, isOther, live⟩ := (each child childIn).entered
    obtain rfl := Option.some.inj (isOther.symm.trans isEntry)
    rw [target]
    exact .inr ⟨child, childIn, live⟩
  · exact .inl target

theorem fans_spreads {reached : NodeId → Prop} (closed : Closed edges reached)
    (start : reached program.label) {id : NodeId}
    (live : id = program.label ∨ ∃ child ∈ program.children,
      child.FlowsTo id) : reached id := by
  rcases live with rfl | ⟨child, childIn, live⟩
  · exact start
  · have branchIn := List.mem_map_of_mem (f := wire false) childIn
    refine (each child childIn).spreads reached
      (fun edge edgeIn => closed edge (fans.inner _ branchIn edge edgeIn))
      (fun entry isEntry => ?_) id live
    obtain ⟨edge, edgeIn, source, target⟩ :=
      fans.enters _ branchIn entry isEntry
    rw [← target]
    exact closed edge edgeIn (by rwa [source])

include distinct in
/-- A construct that is entered at its own node and left from there. -/
theorem isConducted_of_fans (notBlock : program.tag ≠ .block)
    (notService : program.tag ≠ .container .service) {tag : Tag}
    {exits : List OpenExit}
    (isWire : program.wire false =
      ⟨edges, [], some (⟨program.label, .entry⟩, tag), exits⟩)
    (fromNode : ∀ exit ∈ exits, exit.source.node = program.label)
    (opens : exits ≠ [] ↔ program.hasExit = true) : program.IsConducted := by
  have flowsTo : ∀ id, program.FlowsTo id ↔
      id = program.label ∨ ∃ child ∈ program.children, child.FlowsTo id :=
    fun id => FlowsTo.iff_of_ne_block notBlock notService
  rw [IsConducted, isWire]
  exact {
    noStart := rfl
    liveInside := fun id live => live.mem_labels
    edgesInside := fans_inside each fans
    exitsInside := fun exit exitIn => by
      rw [fromNode exit exitIn]
      exact program.label_mem_labels
    entered := ⟨_, rfl, (flowsTo _).mpr (.inl rfl)⟩
    exits := opens
    closed := fun edge edgeIn live => (flowsTo _).mpr
      (fans_closed distinct each fans edge edgeIn ((flowsTo _).mp live))
    leaves := fun exit exitIn _ => by
      rw [passes_eq_hasExit notBlock]
      exact opens.mp (List.ne_nil_of_mem exitIn)
    spreads := fun reached closed atEntry id live =>
      fans_spreads each fans closed (atEntry _ rfl) ((flowsTo id).mp live)
    goesThrough := fun reached _ atEntry goes => by
      rw [passes_eq_hasExit notBlock] at goes
      obtain ⟨exit, exitIn⟩ := List.exists_mem_of_ne_nil _ (opens.mpr goes)
      refine ⟨exit, exitIn, ?_⟩
      rw [fromNode exit exitIn]
      exact atEntry _ rfl }

include distinct in
/-- A construct whose branches come together at its own node. -/
theorem isConducted_of_merging (notBlock : program.tag ≠ .block)
    (notService : program.tag ≠ .container .service) {tag : Tag} {merged : Bool}
    (isWire : program.wire false =
      .merging program.label tag edges [] merged)
    (opens : merged = program.hasExit) : program.IsConducted := by
  refine isConducted_of_fans distinct each fans notBlock notService isWire ?_ ?_
  · cases merged <;> simp
  · cases merged <;> simp [← opens]

end Branches

theorem IsConducted.not_isEmpty_exits {program : Program NodeId}
    (conducted : program.IsConducted) :
    (!(program.wire false).exits.isEmpty) = program.hasExit := by
  rw [Bool.eq_iff_iff, ← conducted.exits]
  simp

/-! ## Sequences -/

/-- Flow gets to the node with a label in a sequence that it enters at the
front. -/
def ChainFlowsTo (members : List (Program NodeId)) (id : NodeId) : Prop :=
  ∃ earlier member later, members = earlier ++ member :: later ∧
    (∀ previous ∈ earlier, previous.passes = true) ∧ member.FlowsTo id

theorem chainFlowsTo_snoc {members : List (Program NodeId)}
    {last : Program NodeId} {id : NodeId} :
    ChainFlowsTo (members ++ [last]) id ↔
      ChainFlowsTo members id ∨
        (∀ member ∈ members, member.passes = true) ∧ last.FlowsTo id := by
  constructor
  · rintro ⟨earlier, member, later, split, goes, live⟩
    rcases later.eq_nil_or_concat with rfl | ⟨between, final, rfl⟩
    · obtain ⟨rfl, rfl⟩ : members = earlier ∧ last = member := by
        simpa using List.append_inj' split rfl
      exact .inr ⟨goes, live⟩
    · have parts : members = earlier ++ member :: between ∧ [last] = [final] :=
        List.append_inj' (by simpa using split) rfl
      exact .inl ⟨earlier, member, between, parts.1, goes, live⟩
  · rintro (⟨earlier, member, later, rfl, goes, live⟩ | ⟨goes, live⟩)
    · exact ⟨earlier, member, later ++ [last], by simp, goes, live⟩
    · exact ⟨members, last, [], rfl, goes, live⟩

theorem chain_snoc (wirings : List Wiring) (last : Wiring) :
    Wiring.chain (wirings ++ [last]) =
      (Wiring.chain wirings).followedBy last := by
  simp [Wiring.chain]

theorem chain_singleton (wiring : Wiring) : Wiring.chain [wiring] = wiring := by
  simp [Wiring.chain, Wiring.followedBy, Wiring.nothing]

theorem conducts_chain {members : List (Program NodeId)} (filled : members ≠ [])
    (distinct : (members.flatMap labels).Nodup)
    (each : ∀ member ∈ members, member.IsConducted) :
    Conducts (members.flatMap labels) (ChainFlowsTo members)
      (∀ member ∈ members, member.passes = true)
      ((members.getLast?.map hasExit).getD true = true)
      (.chain (members.map (wire false))) := by
  induction members using List.reverseRecOn with
  | nil => exact absurd rfl filled
  | append_singleton members last ih =>
      have lastConducts := each last (by simp)
      rw [List.map_append, List.map_singleton]
      cases members with
      | nil =>
          rw [List.map_nil, List.nil_append, List.nil_append, chain_singleton]
          refine lastConducts.of_iff (by simp) (fun id => ?_) (by simp) (by simp)
          have snoc : ChainFlowsTo ([] ++ [last]) id ↔ _ := chainFlowsTo_snoc
          exact (snoc.trans (by simp [ChainFlowsTo])).symm
      | cons first rest =>
          rw [chain_snoc]
          rw [List.flatMap_append, List.nodup_append] at distinct
          obtain ⟨nodup, -, apart⟩ := distinct
          have before := ih (by simp) nodup
            fun member memberIn => each member (List.mem_append_left _ memberIn)
          refine (before.followedBy lastConducts ?_).of_iff (by simp)
            (fun id => chainFlowsTo_snoc.symm) ?_
            (by rw [List.getLast?_concat]; rfl)
          · intro id idIn idInLast
            exact apart id idIn id (by simpa using idInLast) rfl
          · simp only [List.mem_append, List.mem_singleton, or_imp,
              forall_and, forall_eq]

/-! ## Every construct -/

theorem wireMembers_eq (members : List (Program NodeId)) :
    wireMembers members =
      members.map fun member => (member.tag, member.label, member.wire false) := by
  induction members with
  | nil => rfl
  | cons member rest ih => simp [wireMembers, ih]

theorem wireArms_eq (arms : List (String × Program NodeId)) :
    wireArms arms = arms.map fun arm => (arm.1, arm.2.wire false) := by
  induction arms with
  | nil => rfl
  | cons arm rest ih => simp [wireArms, ih]

/-- The wiring of a block with members. -/
theorem wire_block (inService : Bool) (label : NodeId)
    {members : List (Program NodeId)} (filled : members ≠ []) :
    (block label members).wire inService =
      if inService then .separate (wireMembers members)
      else if members.any fun member => member.tag.isDeclaration then
        .runs .nothing [] (wireMembers members)
      else .chain (members.map (wire false)) := by
  obtain ⟨first, rest, rfl⟩ := List.exists_cons_of_ne_nil filled
  simp only [wire, wireMembers_eq, List.any_map, List.map_map]
  rfl

theorem run_of_flowing {earlier : List (Program L)}
    (flowing : ∀ member ∈ earlier, member.tag.isDeclaration = false) :
    run earlier = earlier.reverse :=
  List.takeWhile_eq_self_iff.mpr fun member memberIn => by
    simp [flowing member (List.mem_reverse.mp memberIn)]

/-- A block of members that declare nothing is a sequence. -/
theorem isConducted_block {label : NodeId} {members : List (Program NodeId)}
    (filled : members ≠ [])
    (distinct : (block label members).labels.Nodup)
    (flowing : ∀ member ∈ members, member.tag.isDeclaration = false)
    (each : ∀ member ∈ members, member.IsConducted) :
    (block label members).IsConducted := by
  have isWire : (block label members).wire false =
      .chain (members.map (wire false)) := by
    have noneDeclared :
        (members.any fun member => member.tag.isDeclaration) = false :=
      List.any_eq_false.mpr fun member memberIn => by
        simp [flowing member memberIn]
    rw [wire_block false label filled, noneDeclared]
    rfl
  have flowsTo : ∀ id, (block label members).FlowsTo id ↔
      ChainFlowsTo members id := by
    intro id
    rw [FlowsTo.iff_of_block filled]
    constructor
    · rintro ⟨earlier, member, later, rfl, goes, live⟩
      refine ⟨earlier, member, later, rfl, fun previous isPrevious => ?_, live⟩
      refine goes (flowing member (by simp)) previous ?_
      rw [run_of_flowing fun member memberIn => flowing member (by simp [memberIn])]
      exact List.mem_reverse.mpr isPrevious
    · rintro ⟨earlier, member, later, rfl, goes, live⟩
      refine ⟨earlier, member, later, rfl, fun _ previous isPrevious => ?_, live⟩
      rw [run_of_flowing fun member memberIn => flowing member (by simp [memberIn])]
        at isPrevious
      exact goes previous (List.mem_reverse.mp isPrevious)
  rw [labels_eq] at distinct
  have conducts := conducts_chain filled distinct.of_cons each
  rw [IsConducted, isWire, passes_block, hasExit_block, labels_eq]
  exact {
    conducts.of_iff rfl (fun id => (flowsTo id).symm)
      (List.all_eq_true (p := passes)).symm .rfl with
    liveInside := fun id live => List.mem_cons_of_mem _
      (conducts.liveInside id ((flowsTo id).mp live))
    edgesInside := fun edge edgeIn => (conducts.edgesInside edge edgeIn).imp
      (List.mem_cons_of_mem _) (List.mem_cons_of_mem _)
    exitsInside := fun exit exitIn => List.mem_cons_of_mem _
      (conducts.exitsInside exit exitIn) }

/-- The edges of a selection, with the arms numbered from an index on. -/
theorem fans_arms (id : NodeId) (arms : List (String × Wiring)) (index : Nat) :
    Fans id (arms.map Prod.snd)
      ((arms.zipIdx index).flatMap fun entry =>
        Wiring.branchEdges id .selection
          ⟨⟨id, .arm entry.2⟩, .branchArm entry.2, some entry.1.1⟩ entry.1.2) := by
  induction arms generalizing index with
  | nil => exact ⟨by simp, by simp, by simp⟩
  | cons arm rest ih =>
      exact (Fans.branchEdges id .selection
        ⟨⟨id, .arm index⟩, .branchArm index, some arm.1⟩ arm.2 rfl).append
        (ih (index + 1))

theorem isConducted_of_childless {program : Program NodeId}
    (childless : program.children = [])
    (conducts : Conducts [program.label] (· = program.label)
      (program.passes = true) (program.hasExit = true) (program.wire false)) :
    program.IsConducted :=
  conducts.of_iff (by rw [labels_eq, childless]; rfl)
    (fun _ => (FlowsTo.iff_of_childless childless).symm) .rfl .rfl

theorem isConducted_decision {label : NodeId} {consequent : Program NodeId}
    (distinct : (decision label consequent none).labels.Nodup)
    (each : ∀ child ∈ (decision label consequent none).children,
      child.IsConducted) : (decision label consequent none).IsConducted := by
  have noStart := (each consequent (by simp [children])).noStart
  refine isConducted_of_merging distinct each
    ((Fans.branchEdges label .decision _ (wire false consequent) rfl).append
      (Fans.bypass rfl rfl))
    (by simp [tag]) (by simp [tag]) (by rw [wire, Wiring.decision, noStart]; rfl)
    rfl

theorem isConducted_choice {label : NodeId}
    {consequent alternative : Program NodeId}
    (distinct : (decision label consequent (some alternative)).labels.Nodup)
    (each : ∀ child ∈ (decision label consequent (some alternative)).children,
      child.IsConducted) :
    (decision label consequent (some alternative)).IsConducted := by
  have first := each consequent (by simp [children])
  have second := each alternative (by simp [children])
  refine isConducted_of_merging distinct each
    ((Fans.branchEdges label .decision _ (wire false consequent) rfl).append
      (Fans.branchEdges label .decision _ (wire false alternative) rfl))
    (by simp [tag]) (by simp [tag])
    (by rw [wire, Wiring.decision, first.noStart, second.noStart]; rfl) ?_
  rw [first.not_isEmpty_exits, second.not_isEmpty_exits]
  rfl

theorem isConducted_selection {label : NodeId}
    {arms : List (String × Program NodeId)}
    (distinct : (selection label arms).labels.Nodup)
    (each : ∀ child ∈ (selection label arms).children, child.IsConducted) :
    (selection label arms).IsConducted := by
  have armConducted : ∀ arm ∈ arms, arm.2.IsConducted :=
    fun arm armIn => each arm.2 (List.mem_map_of_mem armIn)
  have bodies : (wireArms arms).map Prod.snd =
      (selection label arms).children.map (wire false) := by
    simp [wireArms_eq, children]
  have noStart : ((wireArms arms).flatMap fun arm => arm.2.starts) = [] := by
    rw [wireArms_eq, List.flatMap_map, List.flatMap_eq_nil_iff]
    exact fun arm armIn => (armConducted arm armIn).noStart
  have merges : (wireArms arms).any (fun arm => !arm.2.exits.isEmpty) =
      (selection label arms).hasExit := by
    rw [wireArms_eq, List.any_map, hasExit, comesOut, armComesOut_eq,
      Bool.eq_iff_iff, List.any_eq_true, List.any_eq_true]
    exact exists_congr fun arm => and_congr_right fun armIn =>
      Bool.eq_iff_iff.mp (armConducted arm armIn).not_isEmpty_exits
  refine isConducted_of_merging distinct each
    (bodies ▸ fans_arms label (wireArms arms) 0) (by simp [tag]) (by simp [tag])
    (by
      rw [wire, Wiring.selection, noStart, List.mapIdx_eq_zipIdx_map]
      rfl) merges

theorem isConducted_loop {label : NodeId} {kind : LoopKind}
    {body : Program NodeId} (distinct : (loop label kind body).labels.Nodup)
    (each : ∀ child ∈ (loop label kind body).children, child.IsConducted) :
    (loop label kind body).IsConducted := by
  have noStart := (each body (by simp [children])).noStart
  refine isConducted_of_fans distinct each
    (Fans.branch ⟨⟨label, .branchTrue⟩, .loopEnter, none⟩ (wire false body)
      ⟨label, .loopBack⟩ (.loop kind) rfl rfl)
    (by simp [tag]) (by simp [tag])
    (by rw [wire, Wiring.loop, noStart]; rfl) ?_ ?_
  · simp [Program.label]
  · simp [hasExit, comesOut]

/-- Everything in which nothing is declared conducts flow. -/
theorem Flowing.isConducted {program : Program NodeId}
    (flowing : program.Flowing) (distinct : program.labels.Nodup) :
    program.IsConducted := by
  induction program using childrenInduction with
  | step program ih =>
    have each : ∀ child ∈ program.children, child.IsConducted :=
      fun child childIn => ih child childIn (flowing.child childIn)
        (labels_nodup_of_child distinct childIn)
    cases program with
    | statement label kind =>
        exact isConducted_of_childless rfl
          ((Conducts.passing label .statement).of_iff rfl (fun _ => .rfl)
            (by simp [passes, hasExit, comesOut]) (by simp [hasExit, comesOut]))
    | result label =>
        exact isConducted_of_childless rfl
          ((Conducts.ending label .result).of_iff rfl (fun _ => .rfl)
            (by simp [passes, hasExit, comesOut]) (by simp [hasExit, comesOut]))
    | block label members =>
        cases members with
        | nil =>
            exact isConducted_of_childless rfl
              ((Conducts.passing label .block).of_iff rfl (fun _ => .rfl)
                (by simp [passes, allPass])
                (by simp [hasExit, comesOut, membersComeOut]))
        | cons first rest =>
            exact isConducted_block (by simp) distinct
              (fun member memberIn => (flowing.child memberIn).root) each
    | decision label consequent alternative =>
        cases alternative with
        | none => exact isConducted_decision distinct each
        | some alternative => exact isConducted_choice distinct each
    | selection label arms => exact isConducted_selection distinct each
    | loop label kind body => exact isConducted_loop distinct each
    | container label kind body =>
        exact absurd flowing.root (by simp [tag, Tag.isDeclaration])
    | typeDefinition label =>
        exact absurd flowing.root (by simp [tag, Tag.isDeclaration])

end Program

end Flowchart
