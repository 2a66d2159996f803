import Flowchart.Proofs.Revision.Reuse

/-!
# Layout with any cache at hand

A cache may hold whatever earlier passes left in it.  As long as what it has for
the nodes of a tree is what measuring them with an empty cache gives, the tree is
laid out as if there were no cache, and the pass does no more than it has to.
-/

namespace Flowchart

/-! ## Cached nodes -/

namespace ArrangementCache

variable {α : Type} [Scalar α]

/-- What the cache has for a node of the tree is what measuring that node with an
empty cache gives. -/
def IsSound (settings : LayoutSettings α) (cache : ArrangementCache α)
    (tree : Tree α) : Prop :=
  ∀ handle node arrangement, tree.HasNode handle node →
    cache.get? node.id = some arrangement →
    ∃ program, tree.unfold (settings.maxDepth + 1) handle = .ok program ∧
      ((program.measure settings).run.run .empty).1 = .ok arrangement

end ArrangementCache

namespace Tree

variable {α : Type}

/-- The cache has an arrangement for the node at a handle. -/
def IsCached (tree : Tree α) (cache : ArrangementCache α) (handle : Handle) :
    Prop :=
  ∃ node, tree.node? handle = some node ∧ cache.contains node.id = true

/-- The cached nodes that stand below nodes none of which is cached. -/
def foundIn (tree : Tree α) (cache : ArrangementCache α) : Set Handle :=
  {handle | ∃ above, tree.WayTo above handle ∧ tree.IsCached cache handle ∧
    ∀ ancestor ∈ above, ¬ tree.IsCached cache ancestor}

/-- The nodes that are not cached and stand below nodes none of which is. -/
def missingIn (tree : Tree α) (cache : ArrangementCache α) : Set Handle :=
  {handle | ∃ above, tree.WayTo above handle ∧ ¬ tree.IsCached cache handle ∧
    ∀ ancestor ∈ above, ¬ tree.IsCached cache ancestor}

variable [Scalar α] {settings : LayoutSettings α} {tree : Tree α}
  {cache : ArrangementCache α}

theorem Stores.unfold_eq {limit : Nat} {program node : Located α}
    (stores : tree.Stores limit program) (nodeIn : node ∈ program.preorder) :
    tree.unfold (limit + 1) node.handle = .ok node.written := by
  have holds : tree.Holds node := fun inner innerIn =>
    stores.holds inner (Program.mem_preorder_trans nodeIn innerIn)
  refine holds.unfold_eq fun between inner inNode => ?_
  obtain ⟨above, stands⟩ := Program.Stands.of_mem_preorder nodeIn
  have within := stores.length_above_le (stands.trans inNode)
  rw [List.length_append] at within
  omega

section

variable {program : Located α} (bears : tree.Bears program)

include bears

omit [Scalar α]

theorem Bears.isCached_iff {node : Located α} (nodeIn : node ∈ program.preorder) :
    tree.IsCached cache node.handle ↔ cache.has node.written = true := by
  rw [IsCached, bears.holds node nodeIn, ArrangementCache.has,
    Program.label_written]
  simp only [Option.some.injEq, exists_eq_left']
  rfl

/-- Nodes with a property, below nodes none of which is cached, are counted in
the program. -/
theorem Bears.encard_uncovered {nodes : List (Located α)}
    (listed : nodes.Sublist program.preorder) {property : Handle → Prop}
    (isListed : ∀ node, node ∈ nodes ↔ property node.handle ∧
      ∃ above, program.Stands above node ∧
        ∀ ancestor ∈ above, cache.has ancestor.written = false) :
    {handle | ∃ above, tree.WayTo above handle ∧ property handle ∧
      ∀ ancestor ∈ above, ¬ tree.IsCached cache ancestor}.encard =
        nodes.length := by
  have isFree : ∀ above : List (Located α),
      (∀ ancestor ∈ above, ancestor ∈ program.preorder) →
      ((∀ handle ∈ above.map Program.handle, ¬ tree.IsCached cache handle) ↔
        ∀ ancestor ∈ above, cache.has ancestor.written = false) := by
    intro above inProgram
    rw [List.forall_mem_map]
    refine forall₂_congr fun ancestor isAbove => ?_
    rw [bears.isCached_iff (inProgram ancestor isAbove), Bool.not_eq_true]
  refine bears.encard_handles listed.subperm fun handle => ?_
  constructor
  · rintro ⟨_, way, holds, free⟩
    obtain ⟨above, node, stands, rfl, rfl⟩ := bears.exists_stands way
    refine ⟨node, (isListed node).mpr ⟨holds, above, stands, ?_⟩, rfl⟩
    exact (isFree above stands.above_mem_preorder).mp free
  · rintro ⟨node, nodeIn, rfl⟩
    obtain ⟨holds, above, stands, free⟩ := (isListed node).mp nodeIn
    exact ⟨_, bears.holds.wayTo bears.root stands, holds,
      (isFree above stands.above_mem_preorder).mpr free⟩

theorem Bears.encard_foundIn : (tree.foundIn cache).encard =
    (program.written.found cache.has).length := by
  rw [Program.written, Program.found_map, List.length_map]
  refine bears.encard_uncovered (Program.found_sublist _ _) fun node => ?_
  rw [Program.mem_found]
  refine and_congr_left fun stood => ?_
  obtain ⟨above, stands, -⟩ := stood
  exact (bears.isCached_iff stands.mem_preorder).symm

theorem Bears.encard_missingIn : (tree.missingIn cache).encard =
    (program.written.made cache.has).length := by
  rw [Program.written, Program.made_map, List.length_map]
  refine bears.encard_uncovered (Program.made_sublist _ _) fun node => ?_
  rw [Program.mem_made]
  refine and_congr_left fun stood => ?_
  obtain ⟨above, stands, -⟩ := stood
  rw [bears.isCached_iff stands.mem_preorder, Bool.not_eq_true]
  rfl

end

/-- A sound cache is sound for the program that the tree stores. -/
theorem Stores.isSound_iff {program : Located α}
    (stores : tree.Stores settings.maxDepth program) :
    cache.IsSound settings tree ↔ cache.Sound settings program.written := by
  have measured : ∀ node ∈ program.preorder, ∀ arrangement,
      ((node.written.measure settings).run.run .empty).1 = .ok arrangement ↔
        node.written.arrange settings = .ok arrangement := by
    intro node nodeIn arrangement
    have writtenIn : node.written ∈ program.written.preorder := by
      rw [Program.written, Program.preorder_map]
      exact List.mem_map_of_mem nodeIn
    have distinct := Program.ids_nodup_of_mem stores.ids_nodup writtenIn
    rw [(Program.measure_gives distinct (sound_empty _)).result_eq]
  constructor
  · intro sound inner innerIn arrangement found
    rw [Program.written, Program.preorder_map] at innerIn
    obtain ⟨node, nodeIn, rfl⟩ := List.mem_map.mp innerIn
    rw [Program.label_map] at found
    obtain ⟨read, isRead, gives⟩ :=
      sound node.handle node.node arrangement (stores.hasNode nodeIn) found
    rw [stores.unfold_eq nodeIn] at isRead
    cases isRead
    exact (measured node nodeIn arrangement).mp gives
  · rintro sound handle node arrangement ⟨reached, isNode⟩ found
    obtain ⟨located, locatedIn, rfl⟩ := stores.reaches_iff.mp reached
    rw [stores.holds located locatedIn] at isNode
    cases isNode
    refine ⟨located.written, stores.unfold_eq locatedIn, ?_⟩
    refine (measured located locatedIn arrangement).mpr (sound _ ?_ _ ?_)
    · rw [Program.written, Program.preorder_map]
      exact List.mem_map_of_mem locatedIn
    · rw [Program.label_written]
      exact found

end Tree

/-! ## A pass -/

/-- A cache that reflects a tree is sound for it. -/
theorem ArrangementCache.Reflects.isSound {α : Type} [Scalar α]
    {settings : LayoutSettings α} {tree : Tree α} {cache : ArrangementCache α}
    {program : Located α} (reflects : cache.Reflects settings tree)
    (stores : tree.Stores settings.maxDepth program)
    (accepted : tree.validate settings.maxDepth = .ok ()) :
    cache.IsSound settings tree := by
  rintro handle node arrangement ⟨reached, isNode⟩ found
  obtain ⟨located, locatedIn, rfl⟩ := stores.reaches_iff.mp reached
  rw [stores.holds located locatedIn] at isNode
  cases isNode
  have writtenIn : located.written ∈ program.written.preorder := by
    rw [Program.written, Program.preorder_map]
    exact List.mem_map_of_mem locatedIn
  obtain ⟨_, isRead, known⟩ := reflects.arrangements
  rw [Tree.program_eq accepted stores] at isRead
  cases isRead
  obtain ⟨kept, measured, isKept⟩ := known located.written writtenIn
  rw [Program.label_written] at isKept
  obtain rfl := Option.some.inj (isKept.symm.trans found)
  exact ⟨located.written, stores.unfold_eq locatedIn, measured⟩

namespace Tree

variable {α : Type} [Scalar α]

/-- A malformed tree leaves the cache as it is.  A well-formed one is laid out
with a sound cache as with none; a pass that succeeds leaves the arrangements of
exactly the nodes of the tree, finds the cached nodes that it comes to, and
makes no more than the others that it comes to. -/
theorem layoutCached_exact (settings : LayoutSettings α) (tree : Tree α)
    (cache : ArrangementCache α) :
    (∀ defect, tree.validate settings.maxDepth = .error defect →
      tree.layoutCached settings cache = (.error (.structural defect), cache)) ∧
    (tree.validate settings.maxDepth = .ok () → cache.IsSound settings tree →
      (tree.layoutCached settings cache).1 = tree.layout settings ∧
      ∀ diagram later,
        tree.layoutCached settings cache = (.ok diagram, later) →
        (later.entries.map Prod.fst).Perm tree.identities ∧
        later.IsSound settings tree ∧
        later.hits = cache.hits + (tree.foundIn cache).encard ∧
        later.misses = cache.misses + (tree.missingIn cache).encard) := by
  refine ⟨fun defect malformed => layoutCached_of_defect malformed cache,
    fun accepted isSound => ?_⟩
  obtain ⟨program, stores⟩ := exists_stores accepted
  have read := program_eq accepted stores
  have sound := stores.isSound_iff.mp isSound
  have same : (tree.layoutCached settings cache).1 = tree.layout settings :=
    (layoutCached_fst read stores.ids_nodup sound).trans
      (layout_eq read stores.ids_nodup).symm
  refine ⟨same, fun diagram later laidOut => ?_⟩
  obtain ⟨_, arrangement, between, isRead, ran, rfl⟩ :=
    measured_of_layoutCached laidOut
  obtain rfl := Except.ok.inj (read.symm.trans isRead)
  have intact := intact_of_layout read stores.ids_nodup
    (same.symm.trans (congrArg Prod.fst laidOut))
  have measured := (Program.measure_gives stores.ids_nodup sound).result_eq
  rw [ran] at measured
  obtain ⟨-, rfl⟩ := settle_eq_ok.mp measured.symm
  have reflects : (between.retain (program.written.framed settings)).Reflects
      settings tree := ArrangementCache.reflects_retain stores accepted intact
  have counted := Program.measure_counts stores.ids_nodup sound ran
  refine ⟨reflects.identities, reflects.isSound stores accepted, ?_, ?_⟩
  · rw [stores.encard_foundIn]
    exact_mod_cast counted.hits
  · rw [stores.encard_missingIn]
    exact_mod_cast counted.misses

/-- The first step of a growing block is cached, and so is one that is gone. -/
theorem layoutCached_exact_growingBlock : ∃ cache diagram later,
    let tree := Session.growingBlock [1, 2]
    tree.validate 64 = .ok () ∧ cache.IsSound .standard tree ∧
      cache.entries.map Prod.fst = ["first", "gone"] ∧
      tree.layoutCached .standard cache = (.ok diagram, later) ∧
      tree.layout .standard = .ok diagram ∧
      (later.entries.map Prod.fst).Perm tree.identities ∧
      later.IsSound .standard tree ∧
      later.hits = cache.hits + (tree.foundIn cache).encard ∧
      later.misses = cache.misses + (tree.missingIn cache).encard := by
  let step : Program (Label Float32) :=
    .statement ⟨"first", "go on", none⟩ .expression
  let cache : ArrangementCache Float32 :=
    ⟨[("first", step.framed .standard), ("gone", default)], 3, 5⟩
  have accepted : (Session.growingBlock [1, 2]).validate 64 = .ok () := by cbv
  have isSound : cache.IsSound .standard (Session.growingBlock [1, 2]) := by
    rintro handle node arrangement ⟨-, isNode⟩ found
    rcases handle with _ | _ | _ | _
    · cases isNode
      change cache.get? "main" = some arrangement at found
      simp [cache, ArrangementCache.get?, List.lookup] at found
    · cases isNode
      change cache.get? "first" = some arrangement at found
      have kept : step.framed .standard = arrangement := by
        simpa [cache, ArrangementCache.get?] using found
      have distinct : step.ids.Nodup := by decide
      refine ⟨step, rfl, ?_⟩
      exact (Program.measure_inner distinct step.self_mem_preorder).mpr
        ⟨by decide +kernel, kept⟩
    · cases isNode
      change cache.get? "second" = some arrangement at found
      simp [cache, ArrangementCache.get?, List.lookup] at found
    · cases isNode
  have isOk : ((Session.growingBlock [1, 2]).drawn .standard).isOk = true :=
    Session.isOk_drawn_growingBlock [1, 2] (by simp)
  obtain ⟨-, exact⟩ :=
    layoutCached_exact .standard (Session.growingBlock [1, 2]) cache
  obtain ⟨same, counted⟩ := exact accepted isSound
  rcases laidOut : (Session.growingBlock [1, 2]).layoutCached .standard cache with
    ⟨error | diagram, later⟩
  · rw [laidOut] at same
    rw [drawn, ← same] at isOk
    cases isOk
  · rw [laidOut] at same
    exact ⟨cache, diagram, later, accepted, isSound, rfl, laidOut, same.symm,
      counted diagram later laidOut⟩

end Tree

end Flowchart
