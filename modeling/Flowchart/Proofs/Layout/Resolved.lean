import Flowchart.Proofs.Flow.Reachable
import Flowchart.Proofs.Layout.Visited
import Flowchart.Proofs.Tree.Matching

/-!
# Nothing is looked up in vain

Measuring a tree means going from handle to handle, and wiring it means naming
anchors of nodes.  In a tree that passes validation every handle leads to a node,
no handle lies deeper than the limit, and every anchor that the wiring names is
one that the frame of its node has.
-/

namespace Flowchart

/-! ## Passes of limited depth -/

/-- A pass of measuring that may run out of levels, and then has no result. -/
abbrev LimitedMeasuring (α β : Type) : Type :=
  ExceptT Fault (StateT (ArrangementCache α) Option) β

namespace LimitedMeasuring

variable {α β γ : Type}

def outOfLevels : LimitedMeasuring α β := ExceptT.mk fun _ => none

/-- Puts an arrangement that was just made into the cache. -/
def keep (arrangement : Arrangement α) : LimitedMeasuring α (Arrangement α) := do
  modify fun cache => cache.insert arrangement
  return arrangement

/-- Takes the arrangement of a node from the cache, or makes one and keeps
it. -/
def orMake (id : NodeId) (make : LimitedMeasuring α (Arrangement α)) :
    LimitedMeasuring α (Arrangement α) := do
  match (← get).get? id with
  | some arrangement =>
      modify ArrangementCache.countHit
      return arrangement
  | none => make >>= keep

/-- The levels suffice, and the pass does what the unlimited one does. -/
def Suffices (limited : LimitedMeasuring α β) (pass : Measuring α β) : Prop :=
  ∀ cache, limited.run.run cache = some (pass.run.run cache)

namespace Suffices

theorem pure (value : β) :
    Suffices (Pure.pure value : LimitedMeasuring α β) (Pure.pure value) :=
  fun _ => rfl

theorem of_except (result : Except Fault β) :
    Suffices (liftM result : LimitedMeasuring α β) (liftM result) := by
  intro cache
  cases result <;> rfl

theorem bind {limited : LimitedMeasuring α β} {pass : Measuring α β}
    {next : β → LimitedMeasuring α γ} {nextPass : β → Measuring α γ}
    (first : Suffices limited pass)
    (rest : ∀ value, Suffices (next value) (nextPass value)) :
    Suffices (limited >>= next) (pass >>= nextPass) := by
  intro cache
  have begun := first cache
  rcases ran : pass.run.run cache with ⟨fault | value, later⟩
  · rw [ran] at begun
    simp only [ExceptT.run_bind, StateT.run_bind, begun, ran]
    rfl
  · rw [ran] at begun
    simp only [ExceptT.run_bind, StateT.run_bind, begun, ran]
    exact rest value later

theorem orMake {id : NodeId} {limited : LimitedMeasuring α (Arrangement α)}
    {make : Measuring α (Arrangement α)} (made : Suffices limited make) :
    Suffices (LimitedMeasuring.orMake id limited) (Measuring.orMake id make) := by
  intro cache
  have run_eq : (LimitedMeasuring.orMake id limited).run.run cache =
      ExceptT.run (m := StateT (ArrangementCache α) Option)
        (match cache.get? id with
        | some arrangement => do
            modify ArrangementCache.countHit
            return arrangement
        | none => limited >>= keep) cache := rfl
  rw [run_eq, Measuring.run_orMake]
  cases cache.get? id with
  | some arrangement => rfl
  | none =>
      have kept : ∀ arrangement : Arrangement α,
          Suffices (keep arrangement) (Measuring.keep arrangement) :=
        fun _ _ => rfl
      exact (made.bind kept) cache

end Suffices

end LimitedMeasuring

namespace Tree

variable {α : Type} [Scalar α]

open LimitedMeasuring (Suffices)

/-- Measures the node at a handle with a recursion of so many levels. -/
def measureWithin (settings : LayoutSettings α) (tree : Tree α) :
    (levels : Nat) → Handle → LimitedMeasuring α (Arrangement α)
  | 0, _ => LimitedMeasuring.outOfLevels
  | levels + 1, handle =>
      match tree.node? handle with
      | none => throw (.missingNode handle)
      | some node =>
          LimitedMeasuring.orMake node.id do
            let below ← node.construct.children.mapM fun child =>
              tree.measureWithin settings levels child.2
            liftM (node.construct.assemble settings node.toLabel below)

variable {settings : LayoutSettings α} {tree : Tree α}

theorem measureMembers_suffices {levels : Nat} {programs : List (Located α)}
    (each : ∀ program ∈ programs,
      Suffices (tree.measureWithin settings levels program.handle)
        (program.written.measure settings)) :
    Suffices
      ((programs.map Program.handle).mapM (tree.measureWithin settings levels))
      (Program.measureMembers settings (programs.map Program.written)) := by
  induction programs with
  | nil => exact Suffices.pure []
  | cons program rest ih =>
      rw [List.map_cons, List.mapM_cons, List.map_cons, Program.measureMembers]
      refine (each program List.mem_cons_self).bind fun first => ?_
      refine (ih fun other otherIn =>
        each other (List.mem_cons_of_mem _ otherIn)).bind fun others => ?_
      exact Suffices.pure (first :: others)

/-- Measuring from handle to handle is measuring the program that the tree holds,
given a level for every node on the way down. -/
theorem Holds.measureWithin {program : Located α} (holds : tree.Holds program)
    {levels : Nat} (shallow : ∀ above node, program.Stands above node →
      above.length < levels) :
    Suffices (tree.measureWithin settings levels program.handle)
      (program.written.measure settings) := by
  induction program using Program.childrenInduction generalizing levels with
  | step program ih =>
    obtain ⟨levels, rfl⟩ :=
      Nat.exists_eq_add_one_of_ne_zero (shallow [] _ .root).ne'
    have below : ∀ child ∈ program.children,
        Suffices (tree.measureWithin settings levels child.handle)
          (child.written.measure settings) := by
      intro child childIn
      refine ih child childIn (holds.child childIn) fun above node stands => ?_
      simpa using shallow _ node (stands.inside childIn)
    have members := measureMembers_suffices below
    rw [← Program.handles_construct, List.mapM_map] at members
    rw [Tree.measureWithin, holds.root, Program.measure_written]
    exact (members.bind fun arrangements => .of_except _).orMake

end Tree

/-! ## Endpoints -/

namespace Arrangement

variable {α : Type} [Scalar α]

/-- An endpoint names a node and an anchor that its frame has, and so it is found
where the node is placed. -/
structure Resolves (arrangement : Arrangement α) (endpoint : Endpoint) : Prop where
  declared : ∃ node ∈ arrangement.preorder, node.label.id = endpoint.node ∧
    endpoint.anchor ∈ node.label.anchors.map Prod.fst
  placed : ∃ node ∈ arrangement.place .origin none 0, node.id = endpoint.node ∧
    (node.anchor? endpoint.anchor).isSome = true

end Arrangement

namespace Program

variable {α : Type} [Scalar α] {settings : LayoutSettings α}
  {program : Program (Label α)}

theorem HasAnchor.resolves {endpoint : Endpoint}
    (hasAnchor : (program.map Label.id).HasAnchor endpoint) :
    Arrangement.Resolves (program.framed settings) endpoint := by
  constructor
  case placed =>
    obtain ⟨node, point, placed, isNode, isAnchor⟩ :=
      hasAnchor.exists_anchor settings
    exact ⟨node, placed, isNode, by rw [isAnchor]; rfl⟩
  case declared =>
    obtain ⟨node, nodeIn, isNode, anchorIn⟩ := hasAnchor
    rw [preorder_map] at nodeIn
    obtain ⟨inner, innerIn, rfl⟩ := List.mem_map.mp nodeIn
    refine ⟨inner.framed settings, ?_, ?_, ?_⟩
    · rw [preorder_framed]
      exact List.mem_map_of_mem innerIn
    · rw [id_framed, ← isNode, label_map]
    · rwa [anchors_framed, ← anchors_map Label.id]

/-- Whatever the wiring of a program names is there. -/
theorem resolves_flow {edge : Edge} (edgeIn : edge ∈ (program.map Label.id).flow.1) :
    Arrangement.Resolves (program.framed settings) edge.source ∧
      Arrangement.Resolves (program.framed settings) edge.target := by
  obtain ⟨source, target⟩ :=
    (wire_within (program.map Label.id) false).edges edge edgeIn
  exact ⟨source.resolves, target.resolves⟩

end Program

namespace Diagram

variable {α : Type}

/-- Marking moves no anchor. -/
theorem anchor?_markReachable (diagram : Diagram α) (starts : List NodeId)
    (endpoint : Endpoint) :
    (diagram.markReachable starts).anchor? endpoint =
      diagram.anchor? endpoint := by
  simp only [anchor?, node?, markReachable, List.find?_map, Option.bind_map]
  rfl

/-- What resolves in an arrangement has a place in its diagram. -/
theorem isSome_anchor?_unmarked [Scalar α] {arrangement : Arrangement α}
    (distinct : (arrangement.labels.map Frame.id).Nodup) {endpoint : Endpoint}
    (resolves : arrangement.Resolves endpoint) :
    ((unmarked arrangement).anchor? endpoint).isSome = true := by
  obtain ⟨node, placed, isNode, isSome⟩ := resolves.placed
  have found : (unmarked arrangement).node? node.id = some node :=
    Keyed.find?_eq_some (by rwa [unmarked, Arrangement.ids_place]) placed
  rwa [anchor?, ← isNode, found]

end Diagram

namespace Tree

variable {α : Type} [Scalar α]

/-- A tree in which nothing is looked up in vain while it is laid out. -/
structure Resolves (settings : LayoutSettings α) (tree : Tree α) : Prop where
  /-- Measuring from handle to handle needs no more levels than the limit allows,
  and it is measuring the program. -/
  measured : ∃ root program, tree.root = some root ∧
    tree.program settings.maxDepth = .ok program ∧
    ∀ cache, (tree.measureWithin settings (settings.maxDepth + 1) root).run.run
      cache = some ((program.measure settings).run.run cache)
  wired : ∀ program arrangement,
    tree.program settings.maxDepth = .ok program →
    ((program.measure settings).run.run .empty).1 = .ok arrangement →
    ∀ edge ∈ (arrangement.map Frame.id).flow.1,
      arrangement.Resolves edge.source ∧ arrangement.Resolves edge.target
  anchored : ∀ diagram, tree.layout settings = .ok diagram →
    ∀ edge ∈ diagram.edges, (diagram.anchor? edge.source).isSome = true ∧
      (diagram.anchor? edge.target).isSome = true
  fails : ∀ error, tree.layout settings = .error error →
    (∃ id, error = .inconsistent (.invalidGeometry id)) ∨
      ∃ first second, error = .inconsistent (.siblingOverlap first second)

/-- In a tree that passes validation every handle and every anchor that layout
asks for is there, whatever the settings are. -/
theorem layout_resolves (settings : LayoutSettings α) (tree : Tree α)
    (accepted : tree.validate settings.maxDepth = .ok ()) :
    tree.Resolves settings := by
  obtain ⟨located, stores⟩ := exists_stores accepted
  have read := program_eq accepted stores
  refine ⟨⟨located.handle, located.written, stores.root, read, ?_⟩, ?_, ?_, ?_⟩
  · exact stores.holds.measureWithin fun above node stands =>
      Nat.lt_succ_of_le (stores.length_above_le stands)
  · intro program arrangement isRead measured edge edgeIn
    obtain rfl := Except.ok.inj (read.symm.trans isRead)
    rw [(Program.measure_gives stores.ids_nodup (sound_empty _)).result_eq]
      at measured
    obtain ⟨-, rfl⟩ := settle_eq_ok.mp measured
    rw [Program.map_framed] at edgeIn
    exact Program.resolves_flow edgeIn
  · intro diagram laidOut edge edgeIn
    obtain rfl := eq_of_layout read stores.ids_nodup laidOut
    obtain ⟨plain, plainIn, rfl⟩ := List.mem_map.mp edgeIn
    rw [Diagram.unmarked, Program.map_framed] at plainIn
    have distinct :
        ((located.written.framed settings).labels.map Frame.id).Nodup := by
      rw [Program.ids_framed]
      exact stores.ids_nodup
    obtain ⟨source, target⟩ := Program.resolves_flow plainIn
    rw [Diagram.anchor?_markReachable, Diagram.anchor?_markReachable]
    exact ⟨Diagram.isSome_anchor?_unmarked distinct source,
      Diagram.isSome_anchor?_unmarked distinct target⟩
  · intro error failed
    obtain ⟨outline, laidOut⟩ := exists_laidOut accepted
    have geometric := laidOut.fails error failed
    unfold LayoutError.IsGeometric at geometric
    split at geometric
    · exact .inl ⟨_, rfl⟩
    · exact .inr ⟨_, _, rfl⟩
    · exact geometric.elim

/-- A tree as deep as the limit, under settings that spoil its measures. -/
theorem layout_resolves_deadBranch :
    let settings : LayoutSettings Rat :=
      { LayoutSettings.standard with statementSpacing := -50, maxDepth := 3 }
    deadBranch.plainTree.validate settings.maxDepth = .ok () ∧
      deadBranch.plainTree.Resolves settings := by
  intro settings
  have accepted : deadBranch.plainTree.validate settings.maxDepth = .ok () := by
    cbv
  exact ⟨accepted, layout_resolves settings deadBranch.plainTree accepted⟩

end Tree

end Flowchart
