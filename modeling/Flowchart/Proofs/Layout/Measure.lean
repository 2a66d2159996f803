import Flowchart.Layout.Cache
import Flowchart.Proofs.Program.Structure
import Flowchart.Proofs.Results
import Flowchart.Proofs.Tree.Located

/-!
# Measuring with and without a cache

`Program.framed` gives a program the measures of its nodes, whether they are
usable or not, and `Program.arrange` passes it unless a node is at fault.  A
pass of measuring that starts with a cache gives the same result, provided that
whatever the cache has for a node of the program is what measuring that node
from nothing gives.
-/

namespace Flowchart

/-! ## Without a cache -/

/-- A value, unless something was found at fault. -/
def settle {β : Type} (fault : Option Fault) (value : β) : Except Fault β :=
  match fault with
  | some fault => .error fault
  | none => .ok value

theorem settle_eq_ok {β : Type} {fault : Option Fault} {value result : β} :
    settle fault value = .ok result ↔ fault = none ∧ value = result := by
  cases fault <;> simp [settle]

namespace Frame

variable {α : Type} [Scalar α]

/-- What is wrong with the measures of a node. -/
def fault? (frame : Frame α) : Option Fault :=
  if !frame.size.isValid || !Scalar.isFinite frame.spine then
    some (.invalidGeometry frame.id)
  else none

theorem checked_eq (frame : Frame α) :
    frame.checked = settle frame.fault? frame := by
  unfold checked fault?
  split <;> rfl

/-- A node over a frame that passes. -/
theorem checked_bind {β : Type} (frame : Frame α) (build : Frame α → β) :
    (frame.checked >>= fun passed => pure (build passed)) =
      settle frame.fault? (build frame) := by
  rw [checked_eq]
  cases frame.fault? <;> rfl

end Frame

namespace Arrangement

variable {α : Type} [Scalar α]

/-- The first fault, looked for in children before their parents. -/
def fault? (arrangement : Arrangement α) : Option Fault :=
  arrangement.postorder.findSome? fun node => node.label.fault?

theorem fault?_eq (arrangement : Arrangement α) :
    fault? arrangement =
      (arrangement.children.findSome? fault?).or arrangement.label.fault? := by
  rw [fault?, Program.postorder_eq, List.findSome?_append, findSome?_flatMap]
  have own : [arrangement].findSome? (fun node => node.label.fault?) =
      arrangement.label.fault? := by
    rw [List.findSome?_cons]
    cases arrangement.label.fault? <;> rfl
  rw [own]
  rfl

theorem fault?_eq_none_iff {arrangement : Arrangement α} :
    fault? arrangement = none ↔
      ∀ node ∈ arrangement.preorder, node.label.fault? = none := by
  rw [fault?, List.findSome?_eq_none_iff]
  simp only [arrangement.postorder_perm_preorder.mem_iff]

end Arrangement

namespace Program

section

variable {α : Type} [Scalar α] (settings : LayoutSettings α)

/-- The frame of a node that is a figure of its own. -/
def leafFrame (tag : Tag) (label : Label α) (goesOn : Bool) : Frame α :=
  .leaf label (Arrangement.figureSize settings tag label) goesOn

/-- The frame of a block over those of its members. -/
def blockFrame (label : Label α) (members : List (Frame α)) : Frame α :=
  if members.isEmpty then leafFrame settings .block label true
  else .column label settings.statementSpacing members

mutual

/-- The measures of all nodes, from the leaves up. -/
def framed : Program (Label α) → Arrangement α
  | .statement label kind =>
      .statement (leafFrame settings .statement label true) kind
  | .block label members =>
      let members := framedMembers members
      .block (blockFrame settings label (members.map Program.label)) members
  | .decision label consequent none =>
      let consequent := framed consequent
      .decision
        (.decision label (Arrangement.figureSize settings .decision label)
          settings consequent.label none)
        consequent none
  | .decision label consequent (some alternative) =>
      let consequent := framed consequent
      let alternative := framed alternative
      .decision
        (.decision label (Arrangement.figureSize settings .decision label)
          settings consequent.label (some alternative.label))
        consequent (some alternative)
  | .selection label arms =>
      let arms := framedArms arms
      .selection
        (.selection label (Arrangement.figureSize settings .selection label)
          settings (arms.map fun arm => arm.2.label))
        arms
  | .loop label kind body =>
      let body := framed body
      .loop
        (.loop label (Arrangement.figureSize settings (.loop kind) label)
          settings body.label)
        kind body
  | .result label => .result (leafFrame settings .result label false)
  | .container label kind body =>
      let body := framed body
      .container
        (.container label
          (Arrangement.figureSize settings (.container kind) label) settings
          kind body.label)
        kind body
  | .typeDefinition label =>
      .typeDefinition (leafFrame settings .typeDefinition label true)

def framedMembers : List (Program (Label α)) → List (Arrangement α)
  | [] => []
  | member :: rest => framed member :: framedMembers rest

def framedArms :
    List (String × Program (Label α)) → List (String × Arrangement α)
  | [] => []
  | (pattern, body) :: rest => (pattern, framed body) :: framedArms rest

end

/-- Measures a program with nothing known before. -/
def arrange (program : Program (Label α)) : Except Fault (Arrangement α) :=
  settle (Arrangement.fault? (program.framed settings))
    (program.framed settings)

theorem framedMembers_eq (members : List (Program (Label α))) :
    framedMembers settings members = members.map (framed settings) := by
  induction members with
  | nil => rfl
  | cons member rest ih => simp [framedMembers, ih]

theorem framedArms_eq (arms : List (String × Program (Label α))) :
    framedArms settings arms =
      arms.map fun arm => (arm.1, framed settings arm.2) := by
  induction arms with
  | nil => rfl
  | cons arm rest ih => simp [framedArms, ih]

@[simp]
theorem children_framed (program : Program (Label α)) :
    (program.framed settings).children =
      program.children.map (framed settings) := by
  cases program with
  | decision label consequent alternative =>
      cases alternative <;> simp [framed, children]
  | _ => simp [framed, children, framedMembers_eq, framedArms_eq]

@[simp]
theorem id_framed (program : Program (Label α)) :
    (program.framed settings).label.id = program.label.id := by
  cases program with
  | decision label consequent alternative => cases alternative <;> rfl
  | block label members =>
      cases members <;> rfl
  | _ => rfl

end

/-! ## Identities -/

variable {α : Type}

/-- The identities of all nodes, parents before children. -/
def ids (program : Program (Label α)) : List NodeId :=
  program.preorder.map fun node => node.label.id

theorem ids_eq (program : Program (Label α)) :
    program.ids = program.label.id :: program.children.flatMap ids := by
  rw [ids, preorder_eq, List.map_cons, List.map_flatMap]
  rfl

end Program

/-! ## Measuring the children and then the node -/

/-- The arrangement of a node over those of its children. -/
def Construct.assemble {α : Type} [Scalar α] (settings : LayoutSettings α)
    (label : Label α) :
    Construct → List (Arrangement α) → Except Fault (Arrangement α)
  | .statement kind, _ => Arrangement.ofStatement settings label kind
  | .block _, members => Arrangement.ofBlock settings label members
  | .decision (some _) none, [consequent] =>
      Arrangement.ofDecision settings label consequent none
  | .decision (some _) (some _), [consequent, alternative] =>
      Arrangement.ofDecision settings label consequent (some alternative)
  | .selection arms, bodies =>
      Arrangement.ofSelection settings label
        ((arms.map Arm.pattern).zip bodies)
  | .loop kind _, [body] => Arrangement.ofLoop settings label kind body
  | .result, _ => Arrangement.ofResult settings label
  | .container kind _, [body] => Arrangement.ofContainer settings label kind body
  | .typeDefinition, _ => Arrangement.ofTypeDefinition settings label
  | _, _ => .error (.invalidGeometry label.id)

namespace Program

variable {α : Type} [Scalar α] (settings : LayoutSettings α)

/-- The bodies of arms are measured like members. -/
theorem measureArms_eq (arms : List (String × Program (Label α))) :
    measureArms settings arms = do
      let bodies ← measureMembers settings (arms.map Prod.snd)
      return (arms.map Prod.fst).zip bodies := by
  induction arms with
  | nil => rfl
  | cons arm rest ih => simp [measureArms, measureMembers, ih]

/-- Every construct is measured after its children, in their order. -/
theorem measure_written (program : Located α) :
    program.written.measure settings = Measuring.orMake program.identity
      (measureMembers settings (program.children.map written) >>= fun below =>
        liftM (program.construct.assemble settings program.label.2 below)) := by
  cases program with
  | decision label consequent alternative =>
      cases alternative <;>
        simp [written, map, measure, measureMembers, children, identity,
          Program.label, construct, Construct.assemble]
  | selection label arms =>
      simp [written, map, mapArms_eq, measure, measureArms_eq, children,
        identity, Program.label, construct, Construct.assemble,
        Function.comp_def]
  | block label members =>
      simp only [written, map, mapMembers_eq, measure, children]
      rfl
  | _ =>
      simp [written, map, measure, measureMembers, children, identity,
        Program.label, construct, Construct.assemble]

/-- What is assembled over the measures of the children are those of the node,
unless it is at fault. -/
theorem assemble_framed (program : Located α) :
    program.construct.assemble settings program.label.2
        ((program.children.map written).map (framed settings)) =
      settle (program.written.framed settings).label.fault?
        (program.written.framed settings) := by
  cases program with
  | decision label consequent alternative =>
      cases alternative <;> exact Frame.checked_bind _ _
  | block label members =>
      rw [construct, Construct.assemble, Arrangement.ofBlock, Frame.checked_bind]
      simp [written, map, mapMembers_eq, framed, framedMembers_eq, children,
        blockFrame, leafFrame, Program.label, Function.comp_def]
  | selection label arms =>
      rw [construct, Construct.assemble, Arrangement.ofSelection,
        Frame.checked_bind]
      simp [written, map, mapArms_eq, framed, framedArms_eq, children,
        Program.label, Function.comp_def, List.zip_map']
  | _ => exact Frame.checked_bind _ _

/-- A program is measured by measuring its children, and has its measures if they
have theirs. -/
theorem exists_measure_eq (program : Program (Label α)) :
    ∃ assemble : List (Arrangement α) → Except Fault (Arrangement α),
      program.measure settings = Measuring.orMake program.label.id
        (measureMembers settings program.children >>= fun below =>
          liftM (assemble below)) ∧
      assemble (program.children.map (framed settings)) =
        settle (program.framed settings).label.fault? (program.framed settings) := by
  let located : Located α := program.map fun label => (0, label)
  have isWritten : located.written = program := by
    rw [written, map_map]
    exact program.map_id
  have measured := measure_written settings located
  have assembled := assemble_framed settings located
  rw [← children_written, identity, ← label_written, isWritten] at measured
  rw [← children_written, ← label_written, isWritten] at assembled
  exact ⟨_, measured, assembled⟩

end Program

/-! ## One step of a pass -/

namespace Measuring

variable {α β γ : Type}

/-- In a pass that has come to this cache, a step gives the result and leaves
the arrangements of all but the listed identities as they were. -/
structure Gives (listed : List NodeId) (cache : ArrangementCache α)
    (step : Measuring α β) (result : Except Fault β) : Prop where
  result_eq : (step.run.run cache).1 = result
  untouched : ∀ id, id ∉ listed →
    (step.run.run cache).2.get? id = cache.get? id

namespace Gives

variable {cache : ArrangementCache α} {listed others : List NodeId}

theorem of_except (result : Except Fault β) :
    Gives listed cache (liftM result) result := by
  cases result <;> exact ⟨rfl, fun _ _ => rfl⟩

theorem pure (value : β) :
    Gives listed cache (Pure.pure value) (.ok value) :=
  ⟨rfl, fun _ _ => rfl⟩

theorem bind {first : Measuring α β} {firstResult : Except Fault β}
    {next : β → Measuring α γ} {nextResult : β → Except Fault γ}
    (firstGives : Gives listed cache first firstResult)
    (nextGives : ∀ value, firstResult = .ok value → ∀ later,
      (∀ id, id ∉ listed → later.get? id = cache.get? id) →
      Gives others later (next value) (nextResult value)) :
    Gives (listed ++ others) cache (first >>= next)
      (firstResult >>= nextResult) := by
  obtain ⟨rfl, untouched⟩ := firstGives
  rcases ran : first.run.run cache with ⟨result, later⟩
  rw [ran] at untouched nextGives
  cases result with
  | error fault =>
      have stopped : (first >>= next).run.run cache = (.error fault, later) := by
        simp [ExceptT.run_bind, ran]
        rfl
      refine ⟨by rw [stopped]; rfl, fun id notListed => ?_⟩
      rw [stopped]
      exact untouched id fun isListed =>
        notListed (List.mem_append_left _ isListed)
  | ok value =>
      have wentOn : (first >>= next).run.run cache =
          (next value).run.run later := by
        simp [ExceptT.run_bind, ran]
        rfl
      obtain ⟨resultEq, laterUntouched⟩ := nextGives value rfl later untouched
      refine ⟨by rw [wentOn, resultEq]; rfl, fun id notListed => ?_⟩
      rw [List.mem_append, not_or] at notListed
      rw [wentOn, laterUntouched id notListed.2, untouched id notListed.1]

/-- A step after one that may find a fault. -/
theorem bind_settle {first : Measuring α β} {next : β → Measuring α γ}
    {fault nextFault : Option Fault} {value : β} {nextValue : γ}
    (firstGives : Gives listed cache first (settle fault value))
    (nextGives : ∀ later : ArrangementCache α,
      (∀ id, id ∉ listed → later.get? id = cache.get? id) →
      Gives others later (next value) (settle nextFault nextValue)) :
    Gives (listed ++ others) cache (first >>= next)
      (settle (fault.or nextFault) nextValue) := by
  have gives : Gives (listed ++ others) cache (first >>= next)
      (settle fault value >>= fun _ => settle nextFault nextValue) :=
    firstGives.bind fun result isResult later untouched => by
      obtain ⟨-, rfl⟩ := settle_eq_ok.mp isResult
      exact nextGives later untouched
  cases fault <;> exact gives

theorem bind_except {first : Measuring α β} {next : β → Except Fault γ}
    {fault nextFault : Option Fault} {value : β} {nextValue : γ}
    (firstGives : Gives listed cache first (settle fault value))
    (nextEq : next value = settle nextFault nextValue) :
    Gives listed cache (first >>= fun found => liftM (next found))
      (settle (fault.or nextFault) nextValue) := by
  have gives : Gives (listed ++ []) cache
      (first >>= fun found => liftM (next found))
      (settle (fault.or nextFault) nextValue) :=
    firstGives.bind_settle fun _ _ => by
      rw [nextEq]
      exact Gives.of_except _
  simpa using gives

theorem bind_pure {first : Measuring α β} (change : β → γ)
    {fault : Option Fault} {value : β}
    (firstGives : Gives listed cache first (settle fault value)) :
    Gives listed cache (first >>= fun found => Pure.pure (change found))
      (settle fault (change value)) := by
  have gives : Gives (listed ++ []) cache
      (first >>= fun found => Pure.pure (change found))
      (settle (fault.or none) (change value)) :=
    firstGives.bind_settle fun _ _ => Gives.pure (change value)
  simpa using gives

end Gives

end Measuring

namespace ArrangementCache

variable {α : Type}

theorem get?_insert_of_ne {cache : ArrangementCache α}
    {arrangement : Arrangement α} {id : NodeId}
    (different : id ≠ arrangement.label.id) :
    (cache.insert arrangement).get? id = cache.get? id := by
  unfold get? insert erase
  rw [List.lookup_cons, beq_eq_false_iff_ne.mpr different]
  induction cache.entries with
  | nil => rfl
  | cons entry rest ih =>
      obtain ⟨key, kept⟩ := entry
      by_cases isKey : key = arrangement.label.id
      · subst isKey
        simpa [List.lookup_cons, beq_eq_false_iff_ne.mpr different] using ih
      · by_cases isId : id == key
        · simp [isKey, List.lookup_cons, isId]
        · simpa [isKey, List.lookup_cons, isId] using ih

end ArrangementCache

namespace Measuring

variable {α : Type} {cache : ArrangementCache α}

/-- Puts an arrangement that was just made into the cache. -/
def keep (arrangement : Arrangement α) : Measuring α (Arrangement α) := do
  modify fun cache => cache.insert arrangement
  return arrangement

theorem run_orMake (cache : ArrangementCache α) (id : NodeId)
    (make : Measuring α (Arrangement α)) :
    (orMake id make).run.run cache =
      match cache.get? id with
      | some arrangement => (.ok arrangement, cache.countHit)
      | none => (make >>= keep).run.run cache := by
  have run_eq : (orMake id make).run.run cache =
      ExceptT.run (m := StateM (ArrangementCache α))
        (match cache.get? id with
        | some arrangement => do
            modify ArrangementCache.countHit
            return arrangement
        | none => make >>= keep) cache := rfl
  rw [run_eq]
  cases cache.get? id <;> rfl

/-- A node is taken from a cache that has the right arrangement for it, or is
made. -/
theorem Gives.orMake {listed : List NodeId} {id : NodeId}
    {make : Measuring α (Arrangement α)}
    {result : Except Fault (Arrangement α)}
    (known : ∀ arrangement, cache.get? id = some arrangement →
      result = .ok arrangement)
    (made : Gives listed cache make result)
    (named : ∀ arrangement, result = .ok arrangement →
      arrangement.label.id = id) :
    Gives (id :: listed) cache (orMake id make) result := by
  cases found : cache.get? id with
  | some arrangement =>
      have run_eq := run_orMake cache id make
      rw [found] at run_eq
      refine ⟨by rw [run_eq, known arrangement found], fun other _ => ?_⟩
      rw [run_eq]
      rfl
  | none =>
      have kept : Gives (listed ++ [id]) cache (make >>= keep)
          (result >>= .ok) := by
        refine made.bind fun arrangement isResult later untouched => ?_
        refine ⟨rfl, fun other notId => ?_⟩
        have different : other ≠ arrangement.label.id := by
          rw [named arrangement isResult]
          simpa using notId
        exact ArrangementCache.get?_insert_of_ne different
      have result_eq : (result >>= Except.ok) = result := by
        cases result <;> rfl
      rw [result_eq] at kept
      have run_eq := run_orMake cache id make
      rw [found] at run_eq
      refine ⟨by rw [run_eq, kept.result_eq], fun other notListed => ?_⟩
      rw [run_eq]
      exact kept.untouched other (by simpa [and_comm] using notListed)

end Measuring

/-! ## A whole pass -/

namespace ArrangementCache

variable {α : Type} [Scalar α]

/-- What the cache has for the nodes of a program is what measuring them from
nothing gives. -/
def Sound (settings : LayoutSettings α) (cache : ArrangementCache α)
    (program : Program (Label α)) : Prop :=
  ∀ node ∈ program.preorder, ∀ arrangement,
    cache.get? node.label.id = some arrangement →
    node.arrange settings = .ok arrangement

theorem Sound.child {settings : LayoutSettings α} {cache : ArrangementCache α}
    {program child : Program (Label α)} (sound : cache.Sound settings program)
    (childIn : child ∈ program.children) : cache.Sound settings child :=
  fun node nodeIn =>
    sound node (Program.mem_preorder_of_child childIn nodeIn)

/-- A program keeps clear of what is changed for other identities. -/
theorem Sound.of_untouched {settings : LayoutSettings α}
    {cache later : ArrangementCache α} {listed : List NodeId}
    {program : Program (Label α)} (sound : cache.Sound settings program)
    (untouched : ∀ id, id ∉ listed → later.get? id = cache.get? id)
    (apart : ∀ id ∈ program.ids, id ∉ listed) :
    later.Sound settings program := by
  intro node nodeIn arrangement found
  have isId : node.label.id ∈ program.ids := List.mem_map.mpr ⟨node, nodeIn, rfl⟩
  rw [untouched _ (apart _ isId)] at found
  exact sound node nodeIn arrangement found

end ArrangementCache

namespace Program

variable {α : Type} [Scalar α] {settings : LayoutSettings α}

open Measuring (Gives)

/-- The programs of a list are measured one after the other, each with what the
ones before left in the cache. -/
theorem measureMembers_gives {members : List (Program (Label α))}
    (each : ∀ member ∈ members, member.ids.Nodup →
      ∀ cache : ArrangementCache α, cache.Sound settings member →
        Gives member.ids cache (member.measure settings)
          (member.arrange settings))
    (distinct : (members.flatMap ids).Nodup) {cache : ArrangementCache α}
    (sound : ∀ member ∈ members, cache.Sound settings member) :
    Gives (members.flatMap ids) cache (measureMembers settings members)
      (settle ((members.map (framed settings)).findSome? Arrangement.fault?)
        (members.map (framed settings))) := by
  induction members generalizing cache with
  | nil => exact Gives.pure []
  | cons member rest ih =>
      rw [List.flatMap_cons, List.nodup_append] at distinct
      obtain ⟨memberNodup, restNodup, apart⟩ := distinct
      have memberGives := each member List.mem_cons_self memberNodup cache
        (sound member List.mem_cons_self)
      have restGives : ∀ later : ArrangementCache α,
          (∀ id, id ∉ member.ids → later.get? id = cache.get? id) →
          Gives (rest.flatMap ids) later (measureMembers settings rest)
            (settle ((rest.map (framed settings)).findSome?
              Arrangement.fault?) (rest.map (framed settings))) := by
        intro later untouched
        refine ih (fun other otherIn => each other
          (List.mem_cons_of_mem _ otherIn)) restNodup fun other otherIn => ?_
        refine (sound other (List.mem_cons_of_mem _ otherIn)).of_untouched
          untouched fun id idIn inMember => ?_
        exact apart id inMember id
          (List.mem_flatMap.mpr ⟨other, otherIn, idIn⟩) rfl
      rw [measureMembers, List.flatMap_cons, List.map_cons,
        findSome?_cons_or]
      refine memberGives.bind_settle fun later untouched => ?_
      exact (restGives later untouched).bind_pure _

theorem arrange_eq (program : Program (Label α)) :
    program.arrange settings =
      settle
        (((program.children.map (framed settings)).findSome?
          Arrangement.fault?).or (program.framed settings).label.fault?)
        (program.framed settings) := by
  rw [arrange, Arrangement.fault?_eq, children_framed]

/-- A node that measures its children and then itself. -/
theorem orMake_gives {program : Program (Label α)}
    {cache : ArrangementCache α} {make : Measuring α (Arrangement α)}
    (sound : cache.Sound settings program)
    (made : Gives (program.children.flatMap ids) cache make
      (settle
        (((program.children.map (framed settings)).findSome?
          Arrangement.fault?).or (program.framed settings).label.fault?)
        (program.framed settings))) :
    Gives program.ids cache (Measuring.orMake program.label.id make)
      (program.arrange settings) := by
  rw [ids_eq]
  refine Gives.orMake (sound _ program.self_mem_preorder) ?_ ?_
  · rwa [arrange_eq]
  · intro arrangement isResult
    obtain ⟨-, rfl⟩ := settle_eq_ok.mp isResult
    exact id_framed settings program

/-- Measuring gives the arrangement that it would give from nothing. -/
theorem measure_gives {program : Program (Label α)}
    (distinct : program.ids.Nodup) {cache : ArrangementCache α}
    (sound : cache.Sound settings program) :
    Gives program.ids cache (program.measure settings)
      (program.arrange settings) := by
  induction program using childrenInduction generalizing cache with
  | step program ih =>
    obtain ⟨assemble, measured, assembled⟩ := exists_measure_eq settings program
    rw [ids_eq] at distinct
    have childrenGive := measureMembers_gives
      (fun child childIn nodup cache sound => ih child childIn nodup sound)
      (List.nodup_cons.mp distinct).2
      fun child childIn => sound.child childIn
    rw [measured]
    exact orMake_gives sound (childrenGive.bind_except assembled)

end Program

end Flowchart
