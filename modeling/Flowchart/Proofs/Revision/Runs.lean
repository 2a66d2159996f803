import Flowchart.Proofs.Revision.Eviction

/-!
# Whole runs of a session

Whatever revisions are handed in, well formed or not, and whenever they are
taken, a session answers as if it had never seen a tree before.  The step
lemmas keep what the session knows in step with the history of the calls.
-/

namespace Flowchart

namespace Tree

variable {α : Type} [Scalar α]

/-- The diagram of a tree on its own, laid out and routed. -/
def drawn (settings : LayoutSettings α) (tree : Tree α) :
    Except LayoutError (RoutedDiagram α) := do
  let diagram ← tree.layout settings
  (diagram.route settings).mapError .inconsistent

/-- The identities of all nodes that can be reached. -/
def identities (tree : Tree α) : List NodeId :=
  tree.walk.filterMap fun (handle, _) =>
    (tree.node? handle).map fun node => node.id

end Tree

namespace ArrangementCache

variable {α : Type} [Scalar α]

/-- The cache has one arrangement for every identity that can be reached in a
tree, and it is the one that measuring its node from nothing gives. -/
structure Reflects (settings : LayoutSettings α) (cache : ArrangementCache α)
    (tree : Tree α) : Prop where
  identities : (cache.entries.map Prod.fst).Perm tree.identities
  arrangements : ∃ program, tree.program settings.maxDepth = .ok program ∧
    ∀ node ∈ program.preorder, ∃ arrangement,
      ((node.measure settings).run.run .empty).1 = .ok arrangement ∧
        cache.get? node.label.id = some arrangement

end ArrangementCache

/-! ## One revision -/

namespace Tree

variable {α : Type} [Scalar α] {settings : LayoutSettings α} {tree : Tree α}
  {cache : ArrangementCache α}

omit [Scalar α] in
theorem Bears.identities_eq {program : Located α} (bears : tree.Bears program) :
    tree.identities = program.identities := by
  have along : tree.identities = (tree.walk.map Prod.fst).filterMap fun handle =>
      (tree.node? handle).map fun node => node.id := by
    rw [List.filterMap_map]
    rfl
  rw [along, bears.walk_eq, Program.handles, List.filterMap_map,
    Program.identities, ← List.filterMap_eq_map]
  refine List.filterMap_congr fun node nodeIn => ?_
  rw [Function.comp_apply, bears.holds node nodeIn]
  rfl

/-- Only a tree without a fault in its measures is laid out. -/
theorem intact_of_layout {program : Program (Label α)}
    (read : tree.program settings.maxDepth = .ok program)
    (distinct : program.ids.Nodup) {diagram : Diagram α}
    (laidOut : tree.layout settings = .ok diagram) :
    Arrangement.fault? (program.framed settings) = none := by
  obtain ⟨arrangement, arranged, -⟩ :=
    bind_eq_ok.mp (diagram_of_layout read distinct laidOut)
  exact (settle_eq_ok.mp arranged).1

end Tree

namespace Program

variable {α : Type} [Scalar α] {settings : LayoutSettings α}

omit [Scalar α] in
theorem ids_nodup_of_mem {program node : Program (Label α)}
    (distinct : program.ids.Nodup) (nodeIn : node ∈ program.preorder) :
    node.ids.Nodup := by
  induction program using childrenInduction with
  | step program ih =>
    rcases mem_preorder_iff.mp nodeIn with rfl | ⟨child, childIn, inChild⟩
    · exact distinct
    · rw [ids_eq, List.nodup_cons, List.nodup_flatMap] at distinct
      exact ih child childIn (distinct.2.1 child childIn) inChild

/-- A node of a program without a fault is measured as it is framed. -/
theorem measure_inner {program node : Program (Label α)}
    (distinct : program.ids.Nodup) (nodeIn : node ∈ program.preorder)
    {arrangement : Arrangement α} :
    ((node.measure settings).run.run .empty).1 = .ok arrangement ↔
      Arrangement.fault? (node.framed settings) = none ∧
        node.framed settings = arrangement := by
  have sound : ArrangementCache.empty.Sound settings node := Tree.sound_empty node
  rw [(measure_gives (ids_nodup_of_mem distinct nodeIn) sound).result_eq]
  exact settle_eq_ok

end Program

namespace ArrangementCache

variable {α : Type} [Scalar α] {settings : LayoutSettings α} {tree : Tree α}
  {cache : ArrangementCache α} {program : Located α}

omit [Scalar α] in
/-- Entries with distinct identities are all kept. -/
theorem firstOfEach_eq_self {entries : List (NodeId × Arrangement α)}
    (distinct : (entries.map Prod.fst).Nodup) : firstOfEach entries = entries := by
  induction entries with
  | nil => rfl
  | cons entry rest ih =>
      rw [List.map_cons, List.nodup_cons] at distinct
      rw [firstOfEach, ih distinct.2]
      congr 1
      rw [List.filter_eq_self]
      intro other otherIn
      have differs : other.1 ≠ entry.1 := by
        intro same
        exact distinct.1 (same ▸ List.mem_map_of_mem otherIn)
      simpa using differs

/-- What is kept after a pass is what the pass was about. -/
theorem reflects_retain (stores : tree.Stores settings.maxDepth program)
    (accepted : tree.validate settings.maxDepth = .ok ())
    (intact : Arrangement.fault? (program.written.framed settings) = none) :
    (cache.retain (program.written.framed settings)).Reflects settings tree := by
  have identities : ((program.written.framed settings).postorder.map
      fun node => node.label.id).Perm program.written.ids := by
    have framedIds : (program.written.framed settings).labels.map Frame.id =
        program.written.ids := Program.ids_framed program.written
    rw [← framedIds, Program.labels, List.map_map]
    exact (Program.postorder_perm_preorder _).map _
  have distinct : (((program.written.framed settings).postorder.map fun node =>
      (node.label.id, node)).map Prod.fst).Nodup := by
    rw [List.map_map]
    exact identities.nodup_iff.mpr stores.ids_nodup
  have listed : (cache.retain (program.written.framed settings)).entries =
      (program.written.framed settings).postorder.map fun node =>
        (node.label.id, node) := firstOfEach_eq_self distinct
  constructor
  · rw [listed, List.map_map, stores.identities_eq, ← Program.ids_written]
    exact identities
  · refine ⟨program.written, Tree.program_eq accepted stores, ?_⟩
    intro node nodeIn
    have noFault := Program.fault?_framed_of_mem intact nodeIn
    have measured := (Program.measure_inner stores.ids_nodup nodeIn).mpr
      ⟨noFault, rfl⟩
    refine ⟨node.framed settings, measured, ?_⟩
    have framedIn : node.framed settings ∈
        (program.written.framed settings).postorder := by
      rw [(Program.postorder_perm_preorder _).mem_iff, Program.preorder_framed]
      exact List.mem_map_of_mem nodeIn
    rw [get?, listed, Keyed.lookup_eq_some distinct, ← Program.id_framed settings]
    exact List.mem_map_of_mem framedIn

/-- Every arrangement in the cache is that of a node. -/
theorem Reflects.entry_eq (reflects : cache.Reflects settings tree)
    (stores : tree.Stores settings.maxDepth program)
    (accepted : tree.validate settings.maxDepth = .ok ()) :
    ∀ entry ∈ cache.entries, ∃ node ∈ program.preorder,
      entry = (node.identity, node.written.framed settings) := by
  intro entry entryIn
  have keys := reflects.identities
  rw [stores.identities_eq] at keys
  have isIdentity := keys.mem_iff.mp (List.mem_map_of_mem entryIn)
  obtain ⟨node, nodeIn, sameId⟩ := List.mem_map.mp isIdentity
  obtain ⟨read, isRead, known⟩ := reflects.arrangements
  rw [Tree.program_eq accepted stores] at isRead
  cases isRead
  have writtenIn : node.written ∈ program.written.preorder := by
    rw [Program.written, Program.preorder_map]
    exact List.mem_map_of_mem nodeIn
  obtain ⟨arrangement, measured, found⟩ := known node.written writtenIn
  obtain ⟨-, isFramed⟩ :=
    (Program.measure_inner stores.ids_nodup writtenIn).mp measured
  have distinct := keys.nodup_iff.mpr stores.identitiesNodup
  have ownFound : cache.get? entry.1 = some entry.2 :=
    (Keyed.lookup_eq_some distinct).mpr entryIn
  rw [Program.label_written, ← Program.identity, sameId, ownFound] at found
  refine ⟨node, nodeIn, Prod.ext sameId.symm ?_⟩
  exact (Option.some_inj.mp found).trans isFramed.symm

theorem Reflects.intact (reflects : cache.Reflects settings tree)
    (stores : tree.Stores settings.maxDepth program)
    (accepted : tree.validate settings.maxDepth = .ok ()) :
    Arrangement.fault? (program.written.framed settings) = none := by
  obtain ⟨read, isRead, known⟩ := reflects.arrangements
  rw [Tree.program_eq accepted stores] at isRead
  cases isRead
  obtain ⟨arrangement, measured, -⟩ :=
    known program.written program.written.self_mem_preorder
  exact ((Program.measure_inner stores.ids_nodup
    program.written.self_mem_preorder).mp measured).1

end ArrangementCache

/-! ## One call -/

namespace Session

variable {α : Type} [Scalar α] {settings : LayoutSettings α}
  {session : Session α} {tree : Tree α}

/-- What a session keeps of the last tree that it drew. -/
def Remembers (settings : LayoutSettings α) (last : Option (Tree α))
    (cache : ArrangementCache α) : Prop :=
  match last with
  | none => cache.entries = []
  | some tree => tree.validate settings.maxDepth = .ok () ∧ cache.Reflects settings tree

theorem sound_of_remembers (agree : settings.HintsAgree)
    {last : Option (Tree α)} {cache : ArrangementCache α}
    (remembers : Remembers settings last cache) {program : Located α}
    (stores : tree.Stores settings.maxDepth program) :
    ((cache.invalidate (last.getD .empty).parentIds tree.parentIds
      ((last.getD .empty).diff tree)).resetCounters).Sound settings
      program.written := by
  cases last with
  | none =>
      intro node nodeIn arrangement found
      have noEntries : cache.entries = [] := remembers
      simp only [ArrangementCache.get?, ArrangementCache.resetCounters,
        ArrangementCache.invalidate, ArrangementCache.drop, noEntries] at found
      cases found
  | some last =>
      obtain ⟨accepted, reflects⟩ := remembers
      obtain ⟨before, lastStores⟩ := Tree.exists_stores accepted
      exact lastStores.sound_invalidate stores.toBears agree
        (reflects.intact lastStores accepted)
        (reflects.entry_eq lastStores accepted)

/-- A pass routes what it laid out, and keeps what measuring left. -/
theorem layOutWith_eq (session : Session α) (valid : ArrangementCache α)
    (tree : Tree α) :
    let laidOut := tree.layoutCached session.settings valid.resetCounters
    session.layOutWith valid tree =
      (laidOut.1 >>= fun diagram =>
        (diagram.route session.settings).mapError .inconsistent, laidOut.2) := by
  intro laidOut
  unfold layOutWith
  rcases ran : tree.layoutCached session.settings valid.resetCounters with
    ⟨error | diagram, cache⟩
  · simp only [laidOut, ran]
    rfl
  · simp only [laidOut, ran]
    cases isRouted : diagram.route session.settings <;>
      simp [bind, Except.bind, isRouted, Except.mapError]

/-- A malformed tree is not measured at all. -/
theorem layOutWith_of_defect {defect : Defect}
    (malformed : tree.validate session.settings.maxDepth = .error defect)
    (valid : ArrangementCache α) :
    session.layOutWith valid tree =
      (.error (.structural defect), valid.resetCounters) := by
  rw [layOutWith_eq, Tree.layoutCached_of_defect malformed]
  rfl

/-- What a pass over the waiting tree comes to, given what is remembered of the
last tree. -/
theorem layOut_spec (agree : session.settings.HintsAgree)
    (remembers : Remembers session.settings session.lastTree session.cache)
    (tree : Tree α) :
    let previous := session.lastTree.getD .empty
    let pass := session.layOut previous tree (previous.diff tree)
    pass.1 = tree.drawn session.settings ∧
      ∀ diagram, pass.1 = .ok diagram →
        Remembers session.settings (some tree) pass.2 := by
  intro previous pass
  cases accepted : tree.validate session.settings.maxDepth with
  | error defect =>
      have failed : pass.1 = .error (.structural defect) :=
        congrArg Prod.fst (layOutWith_of_defect accepted _)
      have notDrawn : tree.drawn session.settings =
          .error (.structural defect) := by
        rw [Tree.drawn, Tree.layout, Tree.layoutCached_of_defect accepted]
        rfl
      refine ⟨failed.trans notDrawn.symm, fun diagram drawn => ?_⟩
      rw [failed] at drawn
      cases drawn
  | ok _ =>
      obtain ⟨program, stores⟩ := Tree.exists_stores accepted
      have read := Tree.program_eq accepted stores
      have sound := sound_of_remembers agree remembers stores
      have laidOut := (Tree.layoutCached_fst read stores.ids_nodup sound).trans
        (Tree.layout_eq read stores.ids_nodup).symm
      have pass_eq : pass = _ := layOutWith_eq session _ tree
      rw [pass_eq, Tree.drawn, ← laidOut]
      refine ⟨rfl, fun routed isRouted => ?_⟩
      obtain ⟨diagram, isDiagram, -⟩ := bind_eq_ok.mp isRouted
      obtain ⟨later, isRetained⟩ :=
        Tree.layoutCached_snd read stores.ids_nodup sound isDiagram
      have intact := Tree.intact_of_layout read stores.ids_nodup
        (laidOut.symm.trans isDiagram)
      rw [isRetained]
      exact ⟨accepted, ArrangementCache.reflects_retain stores accepted intact⟩

end Session

/-! ## Runs -/

/-- What is asked of a session. -/
inductive Call (α : Type) where
  | submit (tree : Tree α)
  | process

/-- What came of some calls, as far as the calls alone tell. -/
structure History (α : Type) where
  submitted : Nat
  /-- The trees that were processed, the first one first. -/
  taken : List (Tree α)
  waiting : Option (Tree α)

namespace History

variable {α : Type} [Scalar α]

def empty : History α := ⟨0, [], none⟩

def after (history : History α) : Call α → History α
  | .submit tree =>
      { history with
        submitted := history.submitted + 1
        waiting := some tree }
  | .process =>
      { history with
        taken := history.taken ++ history.waiting.toList
        waiting := none }

def ofCalls (calls : List (Call α)) : History α := calls.foldl after empty

/-- The trees taken that have a diagram. -/
def drawn (settings : LayoutSettings α) (history : History α) : List (Tree α) :=
  history.taken.filter fun tree => (tree.drawn settings).isOk

theorem drawn_after {settings : LayoutSettings α} {history : History α}
    {tree : Tree α} (waiting : history.waiting = some tree) :
    (history.after .process).drawn settings =
      history.drawn settings ++
        if (tree.drawn settings).isOk then [tree] else [] := by
  rw [drawn, after, waiting, Option.toList_some, List.filter_append,
    List.filter_singleton, Bool.cond_eq_ite]
  rfl

end History

namespace Session

variable {α : Type} [Scalar α] {settings : LayoutSettings α}
  {session : Session α} {history : History α}

def after (session : Session α) : Call α → Session α
  | .submit tree => session.submit tree
  | .process => session.process.2

def run (session : Session α) (calls : List (Call α)) : Session α :=
  calls.foldl after session

/-- A session knows what its history tells, and nothing else. -/
structure Follows (settings : LayoutSettings α) (history : History α)
    (session : Session α) : Prop where
  settings_eq : session.settings = settings
  pending_eq : session.pending = history.waiting
  submitted_eq : history.submitted =
    session.superseded + history.taken.length +
      if session.pending.isSome then 1 else 0
  generation_eq : session.generation = (history.drawn settings).length
  lastTree_eq : session.lastTree = (history.drawn settings).getLast?
  published_eq : session.published =
    session.lastTree.bind fun tree => (tree.drawn settings).toOption
  remembers : Remembers settings session.lastTree session.cache

theorem follows_start (started : start settings = .ok session) :
    Follows settings .empty session := by
  unfold start at started
  obtain ⟨_, -, isSession⟩ := bind_eq_ok.mp started
  cases isSession
  exact {
    settings_eq := rfl
    pending_eq := rfl
    submitted_eq := rfl
    generation_eq := rfl
    lastTree_eq := rfl
    published_eq := rfl
    remembers := rfl }

namespace Follows

theorem submit (follows : Follows settings history session) (tree : Tree α) :
    Follows settings (history.after (.submit tree)) (session.submit tree) := by
  obtain ⟨settings_eq, pending_eq, submitted_eq, generation_eq, lastTree_eq,
    published_eq, remembers⟩ := follows
  refine ⟨settings_eq, rfl, ?_, generation_eq, lastTree_eq, published_eq,
    remembers⟩
  simp only [History.after, Session.submit, Option.isSome_some, if_true]
  omega

/-- Where nothing waits, nothing happens. -/
theorem process_idle (follows : Follows settings history session)
    (idle : history.waiting = none) :
    session.process = (.ok none, session) ∧
      Follows settings (history.after .process) session := by
  obtain ⟨settings_eq, pending_eq, submitted_eq, generation_eq, lastTree_eq,
    published_eq, remembers⟩ := follows
  have stays : session.process = (.ok none, session) := by
    unfold Session.process
    rw [pending_eq, idle]
  have sameHistory : history.after .process = history := by
    obtain ⟨submitted, taken, waiting⟩ := history
    cases idle
    simp [History.after]
  rw [sameHistory]
  exact ⟨stays, settings_eq, pending_eq, submitted_eq, generation_eq,
    lastTree_eq, published_eq, remembers⟩

/-- The waiting tree is answered as if it were the first one, and it is
remembered if it was drawn. -/
theorem process_taken (follows : Follows settings history session)
    (agree : settings.HintsAgree) {tree : Tree α}
    (waiting : history.waiting = some tree) :
    session.process.1.map (Option.map Update.diagram) =
        (tree.drawn settings).map some ∧
      Follows settings (history.after .process) session.process.2 := by
  obtain ⟨rfl, pending_eq, submitted_eq, generation_eq, lastTree_eq,
    published_eq, remembers⟩ := follows
  rw [waiting] at pending_eq
  have counted : history.submitted =
      session.superseded + (history.after .process).taken.length + 0 := by
    rw [pending_eq, Option.isSome_some, if_pos rfl] at submitted_eq
    rw [History.after, waiting, Option.toList_some, List.length_append]
    simpa [Nat.add_assoc] using submitted_eq
  have drawn_eq : (history.after .process).drawn session.settings = _ :=
    History.drawn_after waiting
  have passed := layOut_spec agree remembers tree
  unfold Session.process
  rw [pending_eq]
  dsimp only at passed ⊢
  generalize session.layOut (session.lastTree.getD .empty) tree
    ((session.lastTree.getD .empty).diff tree) = pass at passed
  obtain ⟨answer, kept⟩ := passed
  rw [← answer] at drawn_eq ⊢
  rcases pass with ⟨error | diagram, cache⟩
  · have notDrawn : (history.after .process).drawn session.settings =
        history.drawn session.settings := drawn_eq.trans (List.append_nil _)
    refine ⟨rfl, rfl, rfl, counted, ?_, ?_, published_eq, remembers⟩
    · rw [notDrawn]
      exact generation_eq
    · rw [notDrawn]
      exact lastTree_eq
  · have isDrawn : (history.after .process).drawn session.settings =
        history.drawn session.settings ++ [tree] := drawn_eq
    refine ⟨rfl, rfl, rfl, counted, ?_, ?_, ?_, kept diagram rfl⟩
    · rw [isDrawn, List.length_append]
      exact congrArg (· + 1) generation_eq
    · rw [isDrawn, List.getLast?_concat]
      rfl
    · change some diagram = (tree.drawn session.settings).toOption
      rw [← answer]
      rfl

theorem process (follows : Follows settings history session)
    (agree : settings.HintsAgree) :
    Follows settings (history.after .process) session.process.2 := by
  cases waiting : history.waiting with
  | none =>
      obtain ⟨stays, still⟩ := follows.process_idle waiting
      rw [stays]
      exact still
  | some tree => exact (follows.process_taken agree waiting).2

end Follows

theorem follows_run (agree : settings.HintsAgree)
    (follows : Follows settings history session) (calls : List (Call α)) :
    Follows settings (calls.foldl History.after history) (session.run calls) := by
  induction calls generalizing history session with
  | nil => exact follows
  | cons call rest ih =>
      cases call with
      | submit tree => exact ih (follows.submit tree)
      | process => exact ih (follows.process agree)

/-- A session starts with settings that are accepted. -/
theorem hintsAgree_of_start {settings : LayoutSettings Float32}
    {session : Session Float32} (started : start settings = .ok session) :
    settings.HintsAgree := by
  unfold start at started
  obtain ⟨_, accepted, -⟩ := bind_eq_ok.mp started
  exact (LayoutSettings.validate_accepted accepted).hintsAgree

/-- Whatever was asked of a session before, it knows what the history of the
calls tells, it has nothing to say when nothing waits, and it answers for a tree
that waits as if it were the first one. -/
theorem run_fresh {settings : LayoutSettings Float32} {session : Session Float32}
    (started : start settings = .ok session) (calls : List (Call Float32)) :
    Follows settings (.ofCalls calls) (session.run calls) ∧
      (session.run calls).process.1.map (Option.map Update.diagram) =
        match (History.ofCalls calls).waiting with
        | none => .ok none
        | some tree => (tree.drawn settings).map some := by
  have agree : settings.HintsAgree := by
    unfold start at started
    obtain ⟨_, accepted, -⟩ := bind_eq_ok.mp started
    exact (LayoutSettings.validate_accepted accepted).hintsAgree
  have follows := follows_run agree (follows_start started) calls
  refine ⟨follows, ?_⟩
  cases waiting : (History.ofCalls calls).waiting with
  | none => rw [(follows.process_idle waiting).1]; rfl
  | some tree => exact (follows.process_taken agree waiting).1

/-- A tree that cannot be drawn between two that can. -/
theorem run_fresh_malformedBetween : ∃ session : Session Float32,
    start .standard = .ok session ∧
      let first : Tree Float32 := ⟨#[⟨⟨"main", "", none⟩, .block []⟩], some 0⟩
      let last : Tree Float32 :=
        ⟨#[⟨⟨"main", "", none⟩, .block [1]⟩,
          ⟨⟨"step", "go on", none⟩, .statement .expression⟩], some 0⟩
      let calls : List (Call Float32) :=
        [.submit first, .process, .submit .empty, .process, .submit last]
      Follows .standard (.ofCalls calls) (session.run calls) ∧
        (session.run calls).process.1.map (Option.map Update.diagram) =
          (last.drawn .standard).map some :=
  ⟨_, rfl, run_fresh rfl _⟩

end Session

end Flowchart
