import Flowchart.Proofs.Revision.Unchanged

/-!
# How much is measured again

A session measures exactly the nodes that are changed since the last tree that
it drew, and takes from its cache the unchanged ones at which it comes upon
them.
-/

namespace Flowchart

/-! ## What is known with all below it -/

namespace Program

variable {L : Type} {known : Program L → Bool} {program : Program L}

/-- What is known is so with all below it. -/
def KnownDownward (known : Program L → Bool) (program : Program L) : Prop :=
  ∀ parent ∈ program.preorder, ∀ child ∈ parent.children,
    known parent = true → known child = true

theorem KnownDownward.unknown_above (closed : program.KnownDownward known)
    {above : List (Program L)} {node : Program L}
    (stands : program.Stands above node) (isUnknown : known node = false) :
    ∀ ancestor ∈ above, known ancestor = false := by
  induction stands with
  | root => simp
  | @child above parent node parentStands nodeIn ih =>
      have parentUnknown : known parent = false := by
        rw [Bool.eq_false_iff] at isUnknown ⊢
        exact mt (closed parent parentStands.mem_preorder node nodeIn) isUnknown
      exact List.forall_mem_cons.mpr ⟨parentUnknown, ih parentUnknown⟩

/-- A pass comes to every node that is not known. -/
theorem mem_made_of_closed (closed : program.KnownDownward known)
    {node : Program L} :
    node ∈ program.made known ↔
      node ∈ program.preorder ∧ known node = false := by
  rw [mem_made]
  constructor
  · rintro ⟨isUnknown, above, stands, -⟩
    exact ⟨stands.mem_preorder, isUnknown⟩
  · rintro ⟨nodeIn, isUnknown⟩
    obtain ⟨above, stands⟩ := Stands.of_mem_preorder nodeIn
    exact ⟨isUnknown, above, stands, closed.unknown_above stands isUnknown⟩

/-- A pass comes to the known nodes that are the root or have a parent that is
not known. -/
theorem mem_found_of_closed (closed : program.KnownDownward known)
    {node : Program L} :
    node ∈ program.found known ↔
      node ∈ program.preorder ∧ known node = true ∧
        (node = program ∨ ∃ parent ∈ program.preorder,
          node ∈ parent.children ∧ known parent = false) := by
  rw [mem_found]
  constructor
  · rintro ⟨isKnown, above, stands, unknown⟩
    refine ⟨stands.mem_preorder, isKnown, ?_⟩
    cases stands with
    | root => exact .inl rfl
    | @child above parent _ parentStands nodeIn =>
        exact .inr ⟨parent, parentStands.mem_preorder, nodeIn,
          unknown parent List.mem_cons_self⟩
  · rintro ⟨-, isKnown, rfl | ⟨parent, parentIn, nodeIn, isUnknown⟩⟩
    · exact ⟨isKnown, [], .root, by simp⟩
    · obtain ⟨above, stands⟩ := Stands.of_mem_preorder parentIn
      exact ⟨isKnown, parent :: above, .child stands nodeIn,
        List.forall_mem_cons.mpr
          ⟨isUnknown, closed.unknown_above stands isUnknown⟩⟩

end Program

namespace Tree

variable {α : Type} [Scalar α]

/-- What the new tree reaches and the old one did not have like this. -/
def changed (old new : Tree α) : Set Handle :=
  {handle | new.Reaches handle ∧ ¬ old.Unchanged new handle}

/-- The unchanged nodes that are the root or have a parent that is changed. -/
def firstUnchanged (old new : Tree α) : Set Handle :=
  {handle | new.Reaches handle ∧ old.Unchanged new handle ∧
    (new.root = some handle ∨ ∃ parent, new.Reaches parent ∧
      (∃ name, (name, handle) ∈ new.children parent) ∧
      ¬ old.Unchanged new parent)}

omit [Scalar α] in
theorem not_reaches_empty {handle : Handle} : ¬ (empty : Tree α).Reaches handle := by
  rintro ⟨above, way⟩
  induction way with
  | root isRoot => cases isRoot
  | child _ _ ih => exact ih

section

variable {old tree : Tree α} {program : Located α}

omit [Scalar α] in
/-- Nodes of a stored program are counted by their handles. -/
theorem Bears.encard_handles (bears : tree.Bears program)
    {nodes : List (Located α)} (listed : nodes.Subperm program.preorder)
    {handles : Set Handle}
    (isHandle : ∀ handle, handle ∈ handles ↔ ∃ node ∈ nodes, node.handle = handle) :
    handles.encard = nodes.length := by
  obtain ⟨others, isPerm, isSublist⟩ := listed
  have distinct : (nodes.map Program.handle).Nodup :=
    (isPerm.map Program.handle).nodup_iff.mp
      (bears.handlesNodup.sublist (isSublist.map Program.handle))
  have isFinset : handles = ((nodes.map Program.handle).toFinset : Set Handle) := by
    ext handle
    rw [isHandle, List.coe_toFinset, Set.mem_ofPred_eq, List.mem_map]
  rw [isFinset, Set.encard_coe_eq_coe_finsetCard,
    List.toFinset_card_of_nodup distinct, List.length_map]

variable {known : Located α → Bool} (bears : tree.Bears program)
  (isKnown : ∀ node ∈ program.preorder,
    known node = true ↔ old.Unchanged tree node.handle)

include bears isKnown

theorem Bears.encard_changed (closed : program.KnownDownward known) :
    (old.changed tree).encard = (program.made known).length := by
  refine bears.encard_handles (Program.made_sublist known program).subperm
    fun handle => ?_
  simp only [changed, Set.mem_ofPred_eq, bears.reaches_iff,
    Program.mem_made_of_closed closed]
  constructor
  · rintro ⟨⟨node, nodeIn, rfl⟩, isChanged⟩
    refine ⟨node, ⟨nodeIn, ?_⟩, rfl⟩
    rw [Bool.eq_false_iff]
    exact mt (isKnown node nodeIn).mp isChanged
  · rintro ⟨node, ⟨nodeIn, isUnknown⟩, rfl⟩
    refine ⟨⟨node, nodeIn, rfl⟩, ?_⟩
    rw [← isKnown node nodeIn, isUnknown]
    exact Bool.false_ne_true

theorem Bears.encard_firstUnchanged (closed : program.KnownDownward known) :
    (old.firstUnchanged tree).encard = (program.found known).length := by
  refine bears.encard_handles (Program.found_sublist known program).subperm
    fun handle => ?_
  simp only [firstUnchanged, Set.mem_ofPred_eq, bears.reaches_iff,
    Program.mem_found_of_closed closed]
  constructor
  · rintro ⟨⟨node, nodeIn, rfl⟩, unchanged, isFirst⟩
    refine ⟨node, ⟨nodeIn, (isKnown node nodeIn).mpr unchanged, ?_⟩, rfl⟩
    rcases isFirst with isRoot | ⟨_, ⟨parent, parentIn, rfl⟩, isChild, isChanged⟩
    · rw [bears.root] at isRoot
      exact .inl (bears.eq_of_handle nodeIn program.self_mem_preorder
        (Option.some.inj isRoot).symm)
    · obtain ⟨child, childIn, atChild⟩ := (bears.exists_child_iff parentIn).mp isChild
      obtain rfl := bears.eq_of_handle (Program.mem_preorder_trans parentIn
        (Program.child_mem_preorder childIn)) nodeIn atChild
      refine .inr ⟨parent, parentIn, childIn, ?_⟩
      rw [Bool.eq_false_iff]
      exact mt (isKnown parent parentIn).mp isChanged
  · rintro ⟨node, ⟨nodeIn, nodeKnown, isFirst⟩, rfl⟩
    refine ⟨⟨node, nodeIn, rfl⟩, (isKnown node nodeIn).mp nodeKnown, ?_⟩
    rcases isFirst with rfl | ⟨parent, parentIn, childIn, isUnknown⟩
    · exact .inl bears.root
    · refine .inr ⟨parent.handle, ⟨parent, parentIn, rfl⟩,
        (bears.exists_child_iff parentIn).mpr ⟨node, childIn, rfl⟩, ?_⟩
      rw [← isKnown parent parentIn, isUnknown]
      exact Bool.false_ne_true

end

end Tree

/-! ## What the cache has -/

namespace ArrangementCache

variable {α : Type}

theorem contains_iff {cache : ArrangementCache α} {id : NodeId} :
    cache.contains id = true ↔ id ∈ cache.entries.map Prod.fst := by
  have absent : cache.entries.lookup id = none ↔
      id ∉ cache.entries.map Prod.fst := by
    rw [List.lookup_eq_none_iff]
    constructor
    · intro differs idIn
      obtain ⟨entry, entryIn, rfl⟩ := List.mem_map.mp idIn
      exact bne_iff_ne.mp (differs entry entryIn) rfl
    · intro idOut entry entryIn
      refine bne_iff_ne.mpr fun same => idOut ?_
      exact same ▸ List.mem_map_of_mem entryIn
  rw [contains, get?, Option.isSome_iff_ne_none, Ne, absent, not_not]

theorem contains_drop {cache : ArrangementCache α} {stale : List NodeId}
    {id : NodeId} : (cache.drop stale).contains id = true ↔
      cache.contains id = true ∧ id ∉ stale := by
  rw [contains_iff, contains_iff, drop]
  simp only [List.mem_map, List.mem_filter, Bool.not_eq_true',
    List.contains_eq_mem, decide_eq_false_iff_not]
  constructor
  · rintro ⟨entry, ⟨entryIn, isFresh⟩, rfl⟩
    exact ⟨⟨entry, entryIn, rfl⟩, isFresh⟩
  · rintro ⟨⟨entry, entryIn, rfl⟩, isFresh⟩
    exact ⟨entry, ⟨entryIn, isFresh⟩, rfl⟩

end ArrangementCache

/-! ## What a pass counts -/

namespace Tree

variable {α : Type} [Scalar α] {settings : LayoutSettings α}

/-- A tree that is laid out is measured first. -/
theorem measured_of_layoutCached {tree : Tree α} {cache later : ArrangementCache α}
    {diagram : Diagram α}
    (laidOut : tree.layoutCached settings cache = (.ok diagram, later)) :
    ∃ program arrangement between,
      tree.program settings.maxDepth = .ok program ∧
      (program.measure settings).run.run cache = (.ok arrangement, between) ∧
      later = between.retain arrangement := by
  unfold layoutCached at laidOut
  cases read : tree.program settings.maxDepth with
  | error error =>
      rw [read] at laidOut
      cases laidOut
  | ok program =>
      rw [read] at laidOut
      dsimp only at laidOut
      rcases ran : (program.measure settings).run.run cache with
        ⟨fault | arrangement, between⟩
      · rw [ran] at laidOut
        cases laidOut
      · rw [ran] at laidOut
        dsimp only at laidOut
        cases drawn : Diagram.ofArrangement arrangement with
        | error fault =>
            rw [drawn] at laidOut
            cases laidOut
        | ok positioned =>
            rw [drawn] at laidOut
            cases laidOut
            exact ⟨program, arrangement, between, rfl, ran, rfl⟩

/-- A tree is drawn if the program that it is read as is. -/
theorem isOk_drawn {tree : Tree α} {program : Program (Label α)}
    (read : tree.program settings.maxDepth = .ok program)
    (distinct : program.ids.Nodup)
    (passes : (program.diagram settings >>= fun diagram =>
      diagram.route settings).isOk = true) :
    (tree.drawn settings).isOk = true := by
  rw [drawn, layout_eq read distinct]
  cases isDiagram : program.diagram settings with
  | error fault =>
      rw [isDiagram] at passes
      cases passes
  | ok diagram =>
      rw [isDiagram] at passes
      change (diagram.route settings).isOk = true at passes
      change ((diagram.route settings).mapError _).isOk = true
      cases isRouted : diagram.route settings with
      | error fault =>
          rw [isRouted] at passes
          cases passes
      | ok routed => rfl

end Tree

namespace Session

variable {α : Type} [Scalar α] {settings : LayoutSettings α}

theorem layoutCached_of_layOutWith {session : Session α}
    {valid cache : ArrangementCache α} {tree : Tree α} {diagram : RoutedDiagram α}
    (passed : session.layOutWith valid tree = (.ok diagram, cache)) :
    ∃ positioned, tree.layoutCached session.settings valid.resetCounters =
      (.ok positioned, cache) := by
  rw [layOutWith_eq] at passed
  obtain ⟨isRouted, rfl⟩ := Prod.mk.inj passed
  obtain ⟨positioned, isPositioned, -⟩ := bind_eq_ok.mp isRouted
  exact ⟨positioned, Prod.ext isPositioned rfl⟩

/-- What is left of the last pass are the arrangements of unchanged nodes. -/
theorem has_invalidate_iff {last : Option (Tree α)} {cache : ArrangementCache α}
    (remembers : Remembers settings last cache) {tree : Tree α}
    {program : Located α} (stores : tree.Stores settings.maxDepth program)
    {node : Located α} (nodeIn : node ∈ program.preorder) :
    (cache.invalidate (last.getD .empty).parentIds tree.parentIds
        ((last.getD .empty).diff tree)).has node.written = true ↔
      (last.getD .empty).Unchanged tree node.handle := by
  have label_eq : node.written.label.id = node.identity := by
    rw [Program.label_written]
    rfl
  rw [ArrangementCache.has, label_eq, ArrangementCache.invalidate,
    ArrangementCache.contains_drop, ArrangementCache.contains_iff]
  cases last with
  | none =>
      have noEntries : cache.entries = [] := remembers
      rw [noEntries]
      refine iff_of_false (fun kept => List.not_mem_nil kept.1) ?_
      rintro ⟨keeps, -⟩
      obtain ⟨_, _, ⟨reached, -⟩, -⟩ := keeps.node
      exact Tree.not_reaches_empty reached
  | some old =>
      obtain ⟨accepted, reflects⟩ := remembers
      obtain ⟨before, oldStores⟩ := Tree.exists_stores accepted
      have keys := reflects.identities.mem_iff (a := node.identity)
      rw [oldStores.identities_eq] at keys
      rw [keys, Option.getD_some, oldStores.unchanged_iff_fresh stores.toBears nodeIn]
      rfl

/-- A pass that succeeds makes the arrangements of the changed nodes and finds
those of the unchanged ones that it meets first. -/
theorem layOut_counts {session : Session α} (agree : session.settings.HintsAgree)
    (remembers : Remembers session.settings session.lastTree session.cache)
    {tree : Tree α} {diagram : RoutedDiagram α} {cache : ArrangementCache α}
    (passed : session.layOut (session.lastTree.getD .empty) tree
      ((session.lastTree.getD .empty).diff tree) = (.ok diagram, cache)) :
    cache.misses = ((session.lastTree.getD .empty).changed tree).encard ∧
      cache.hits = ((session.lastTree.getD .empty).firstUnchanged tree).encard := by
  obtain ⟨positioned, laidOut⟩ := layoutCached_of_layOutWith passed
  obtain ⟨program, arrangement, between, read, ran, rfl⟩ :=
    Tree.measured_of_layoutCached laidOut
  have accepted := Tree.validate_of_program read
  obtain ⟨located, stores⟩ := Tree.exists_stores accepted
  obtain rfl := Except.ok.inj (read.symm.trans (Tree.program_eq accepted stores))
  have sound := sound_of_remembers agree remembers stores
  have isKnown := fun (node : Located α) (nodeIn : node ∈ located.preorder) =>
    has_invalidate_iff remembers stores nodeIn
  have closed : located.KnownDownward fun node =>
      (session.cache.invalidate (session.lastTree.getD .empty).parentIds
        tree.parentIds ((session.lastTree.getD .empty).diff tree)).has
          node.written := by
    intro parent parentIn child childIn parentKnown
    rw [isKnown parent parentIn] at parentKnown
    rw [isKnown child (Program.mem_preorder_trans parentIn
      (Program.child_mem_preorder childIn))]
    exact stores.unchanged_child parentIn childIn parentKnown
  have counted := Program.measure_counts stores.ids_nodup sound ran
  rw [stores.encard_changed isKnown closed,
    stores.encard_firstUnchanged isKnown closed]
  refine ⟨congrArg Nat.cast (counted.misses.trans ?_),
    congrArg Nat.cast (counted.hits.trans ?_)⟩
  · rw [Program.written, Program.made_map, List.length_map]
    exact Nat.zero_add _
  · rw [Program.written, Program.found_map, List.length_map]
    exact Nat.zero_add _

variable {session : Session Float32}

/-- Whatever was asked of a session before: where it takes a tree and publishes
its diagram, it has measured exactly the nodes that are changed since the last
tree that it drew, and has found exactly the unchanged ones that it met first. -/
theorem process_exact {settings : LayoutSettings Float32}
    (started : start settings = .ok session) (calls : List (Call Float32))
    {update : Update Float32} {after : Session Float32}
    (published : (session.run calls).process = (.ok (some update), after)) :
    ∃ new, (History.ofCalls calls).waiting = some new ∧
      let old := ((History.ofCalls calls).drawn settings).getLast?.getD .empty
      update.recomputed = (old.changed new).encard ∧
        update.reused = (old.firstUnchanged new).encard := by
  have agree := hintsAgree_of_start started
  have follows : Follows settings (.ofCalls calls) (session.run calls) :=
    follows_run agree (follows_start started) calls
  cases waiting : (History.ofCalls calls).waiting with
  | none =>
      rw [(follows.process_idle waiting).1] at published
      cases published
  | some new =>
      refine ⟨new, rfl, ?_⟩
      obtain ⟨rfl, pending_eq, -, -, lastTree_eq, -, remembers⟩ := follows
      rw [waiting] at pending_eq
      unfold process at published
      rw [pending_eq] at published
      dsimp only at published
      rcases passed : (session.run calls).layOut
        ((session.run calls).lastTree.getD .empty) new
        (((session.run calls).lastTree.getD .empty).diff new) with
        ⟨error | diagram, cache⟩
      · rw [passed] at published
        cases published
      · rw [passed] at published
        cases published
        have counted := layOut_counts agree remembers passed
        rw [lastTree_eq] at counted
        exact counted

/-- A block that stays as it is but for a step that is added to it. -/
def growingBlock (members : List Handle) : Tree Float32 :=
  ⟨#[⟨⟨"main", "", none⟩, .block members⟩,
    ⟨⟨"first", "go on", none⟩, .statement .expression⟩,
    ⟨⟨"second", "stop", none⟩, .statement .expression⟩], some 0⟩

theorem isOk_drawn_growingBlock : ∀ members ∈ [[1], [1, 2]],
    ((growingBlock members).drawn .standard).isOk = true := by
  have first : (growingBlock [1]).program 64 = .ok
      (.block ⟨"main", "", none⟩
        [.statement ⟨"first", "go on", none⟩ .expression]) := by cbv
  have second : (growingBlock [1, 2]).program 64 = .ok
      (.block ⟨"main", "", none⟩
        [.statement ⟨"first", "go on", none⟩ .expression,
          .statement ⟨"second", "stop", none⟩ .expression]) := by cbv
  intro members membersIn
  rcases List.mem_pair.mp membersIn with rfl | rfl
  · exact Tree.isOk_drawn first (by decide) (by decide +kernel)
  · exact Tree.isOk_drawn second (by decide) (by decide +kernel)

theorem process_exact_growingBlock : ∃ session update after,
    start (.standard : LayoutSettings Float32) = .ok session ∧
      (session.run [.submit (growingBlock [1]), .process,
        .submit (growingBlock [1, 2])]).process = (.ok (some update), after) ∧
      update.recomputed =
        ((growingBlock [1]).changed (growingBlock [1, 2])).encard ∧
      update.reused =
        ((growingBlock [1]).firstUnchanged (growingBlock [1, 2])).encard := by
  have first := isOk_drawn_growingBlock [1] (by simp)
  have second := isOk_drawn_growingBlock [1, 2] (by simp)
  obtain ⟨session, started⟩ : ∃ session,
      start (.standard : LayoutSettings Float32) = .ok session := ⟨_, rfl⟩
  have agree := hintsAgree_of_start started
  have answer := ((follows_run agree (follows_start started) [.submit
    (growingBlock [1]), .process, .submit (growingBlock [1, 2])]).process_taken
      agree rfl).1
  have drawn : (History.ofCalls [.submit (growingBlock [1]), .process,
      .submit (growingBlock [1, 2])]).drawn .standard = [growingBlock [1]] := by
    simp [History.ofCalls, History.after, History.empty, History.drawn, first]
  obtain ⟨routed, isDrawn⟩ := exists_of_isOk second
  rw [isDrawn] at answer
  rcases published : (session.run [.submit (growingBlock [1]), .process,
    .submit (growingBlock [1, 2])]).process with ⟨error | none | update, after⟩
  · rw [published] at answer
    cases answer
  · rw [published] at answer
    cases answer
  · obtain ⟨new, waiting, counted⟩ := process_exact started _ published
    rw [drawn] at counted
    cases waiting
    exact ⟨session, update, after, started, published, counted⟩

end Session

end Flowchart
