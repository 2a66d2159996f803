import Flowchart.Proofs.Revision.Climbing
import Flowchart.Proofs.Tree.Verdict

/-!
# Whether a session returns

A tree is taken before it is known to be well formed.  Taking it comes to an end
in every order of gathering the links exactly if no way up that a patch asks for
can come upon a circle of identities.  Where it comes to an end, the answer does
not depend on the order.
-/

namespace Flowchart

namespace Tree

/-- No node is its own ancestor or has the identity of one. -/
def IdsDifferAbove {α : Type} (tree : Tree α) : Prop :=
  ∀ above handle, tree.WayTo above handle → handle ∉ above ∧
    ∀ node, tree.node? handle = some node →
      ∀ ancestor ∈ above, ∀ other, tree.node? ancestor = some other →
        other.id ≠ node.id

end Tree

namespace Session

section

variable {α : Type} [Scalar α]

/-- The waiting tree is taken in some number of steps, in whatever order the
links of both trees are gathered. -/
def AlwaysReturns (session : Session α) : Prop :=
  ∀ oldLinks newLinks, oldLinks.Perm (session.lastTree.getD .empty).parents →
    newLinks.Perm (session.pending.getD .empty).parents →
    ∃ steps answer, session.processIn oldLinks newLinks steps = some answer

variable {settings : LayoutSettings α} {session : Session α} {tree : Tree α}

/-- Of the pairs of the last tree the same count in every order. -/
theorem lookup_of_remembers {last : Option (Tree α)} {cache : ArrangementCache α}
    (remembers : Remembers settings last cache) {links : List (Handle × Handle)}
    (perm : links.Perm (last.getD .empty).parents) (id : NodeId) :
    ((last.getD .empty).parentIdsIn links).lookup id =
      (last.getD .empty).parentIds.lookup id := by
  cases last with
  | none =>
      have noLinks : (Tree.empty : Tree α).parents = [] := by
        simp [Tree.parents, Tree.links, Tree.walk, Tree.empty, Tree.visit]
      rw [Option.getD_none, noLinks] at perm
      rw [perm.eq_nil, Option.getD_none, Tree.parentIds, noLinks]
  | some last =>
      obtain ⟨before, stores⟩ := Tree.exists_stores remembers.1
      exact stores.lookup_in perm id

variable (remembers : Remembers session.settings session.lastTree session.cache)
  (waiting : session.pending = some tree)

include remembers waiting

theorem alwaysReturns_of_each
    (each : ∀ links : List (Handle × Handle), links.Perm tree.parents →
      ∀ patch ∈ (session.lastTree.getD .empty).diff tree,
      ∀ start ∈ Parents.starts (session.lastTree.getD .empty).parentIds patch,
      ∃ steps way, (tree.parentIdsIn links).climb steps start = some way) :
    session.AlwaysReturns := by
  intro oldLinks newLinks oldPerm newPerm
  rw [waiting] at newPerm
  have sameStarts :=
    Parents.starts_congr (lookup_of_remembers remembers oldPerm)
  obtain ⟨steps, stale, climbed⟩ := Parents.exists_climbAll
    fun patch patchIn start isStart =>
      each newLinks newPerm patch patchIn start (sameStarts patch ▸ isStart)
  refine ⟨steps, ?_⟩
  unfold processIn
  rw [waiting]
  exact ⟨_, Option.bind_eq_some_iff.mpr ⟨stale, climbed, rfl⟩⟩

theorem alwaysReturns_iff : session.AlwaysReturns ↔
    ∀ patch ∈ (session.lastTree.getD .empty).diff tree, ∀ id,
      some id ∈ Parents.starts (session.lastTree.getD .empty).parentIds patch →
      ¬ tree.parentIds.LeadsToCircle id := by
  constructor
  · intro returns patch patchIn id isStart leads
    obtain ⟨links, perm, circling⟩ := tree.exists_circling
    obtain ⟨steps, answer, taken⟩ := returns _ links (List.Perm.refl _)
      (by rwa [waiting])
    unfold processIn at taken
    rw [waiting] at taken
    obtain ⟨stale, climbed, -⟩ := Option.bind_eq_some_iff.mp taken
    obtain ⟨way, isWay⟩ :=
      Parents.exists_climb_of_climbAll climbed patchIn isStart
    rw [circling id leads steps] at isWay
    cases isWay
  · intro straight
    refine alwaysReturns_of_each remembers waiting ?_
    intro links perm patch patchIn start isStart
    cases start with
    | none => exact ⟨0, [], Parents.climb_none 0⟩
    | some id =>
        have sameBelow : (tree.parentIdsIn links).IsBelow = tree.parentIds.IsBelow :=
          funext₂ fun child parent => propext (Tree.mem_parentIdsIn_of_perm perm)
        refine Parents.exists_climb ?_
        unfold Parents.LeadsToCircle
        rw [sameBelow]
        exact straight patch patchIn id isStart

/-- A tree that is well formed has no circles. -/
theorem alwaysReturns_of_valid
    (valid : tree.validate session.settings.maxDepth = .ok ()) :
    session.AlwaysReturns := by
  obtain ⟨program, stores⟩ := Tree.exists_stores valid
  refine alwaysReturns_of_each remembers waiting ?_
  intro links perm patch _ start _
  refine ⟨tree.parentIds.length + 1, tree.parentIds.upFrom start, ?_⟩
  rw [Parents.climb_congr (stores.lookup_in perm),
    Parents.climb_of_whole (stores.chain_whole start)]
  rfl

/-- In whatever order the links are gathered, the answer is the same. -/
theorem processIn_eq {oldLinks newLinks : List (Handle × Handle)}
    (oldPerm : oldLinks.Perm (session.lastTree.getD .empty).parents)
    (newPerm : newLinks.Perm tree.parents) {steps : Nat}
    {answer : Except LayoutError (Option (Update α)) × Session α}
    (taken : session.processIn oldLinks newLinks steps = some answer) :
    answer = session.process := by
  unfold processIn at taken
  unfold process
  rw [waiting] at taken ⊢
  obtain ⟨stale, climbed, isAnswer⟩ := Option.bind_eq_some_iff.mp taken
  obtain rfl := Option.some.inj isAnswer
  cases accepted : tree.validate session.settings.maxDepth with
  | error defect =>
      simp only [layOut, layOutWith_of_defect accepted]
      rfl
  | ok _ =>
      obtain ⟨program, stores⟩ := Tree.exists_stores accepted
      rw [Parents.climbAll_congr (lookup_of_remembers remembers oldPerm)
        (stores.lookup_in newPerm)] at climbed
      rw [Parents.climbAll_eq_affected climbed stores.chain_whole]
      rfl

end

/-! ## After any calls -/

variable {settings : LayoutSettings Float32} {session : Session Float32}

/-- Whatever was asked of a session before, it returns from taking a tree in
every order of gathering the links exactly if no way up can come upon a circle
of identities.  Where it returns, the order does not matter, and of a malformed
tree it tells the defect. -/
theorem process_returns_iff (started : start settings = .ok session)
    (calls : List (Call Float32)) {new : Tree Float32}
    (waiting : (History.ofCalls calls).waiting = some new) :
    let old := ((History.ofCalls calls).drawn settings).getLast?.getD .empty
    let current := session.run calls
    (current.AlwaysReturns ↔ ∀ patch ∈ old.diff new, ∀ id,
      some id ∈ Parents.starts old.parentIds patch →
      ¬ new.parentIds.LeadsToCircle id) ∧
    (∀ oldLinks newLinks steps answer, oldLinks.Perm old.parents →
      newLinks.Perm new.parents →
      current.processIn oldLinks newLinks steps = some answer →
      answer = current.process) ∧
    ∀ defect, new.validate settings.maxDepth = .error defect →
      current.process = (.error (.structural defect),
        { current with pending := none }) := by
  intro old current
  have follows : Follows settings (.ofCalls calls) current :=
    follows_run (hintsAgree_of_start started) (follows_start started) calls
  obtain ⟨rfl, pending_eq, -, -, lastTree_eq, -, remembers⟩ := follows
  rw [waiting] at pending_eq
  have old_eq : current.lastTree.getD .empty = old := by
    rw [lastTree_eq]
  refine ⟨?_, ?_, ?_⟩
  · rw [← old_eq]
    exact alwaysReturns_iff remembers pending_eq
  · rw [← old_eq]
    intro oldLinks newLinks steps answer oldPerm newPerm taken
    exact processIn_eq remembers pending_eq oldPerm newPerm taken
  · intro defect malformed
    unfold process
    rw [pending_eq]
    dsimp only
    rw [layOut, layOutWith_of_defect malformed]
    rfl

/-! ## A tree that is never let go of -/

/-- Two blocks, each with a step that has the identity of the other one. -/
def crosswise : Tree Float32 :=
  ⟨#[⟨⟨"main", "", none⟩, .block [1, 3]⟩,
    ⟨⟨"left", "", none⟩, .block [2]⟩,
    ⟨⟨"right", "", none⟩, .statement .expression⟩,
    ⟨⟨"right", "", none⟩, .block [4]⟩,
    ⟨⟨"left", "", none⟩, .statement .expression⟩], some 0⟩

theorem process_returns_iff_crosswise : ∃ session,
    start (.standard : LayoutSettings Float32) = .ok session ∧
    (History.ofCalls [.submit crosswise]).waiting = some crosswise ∧
    let old := ((History.ofCalls [.submit crosswise]).drawn
      .standard).getLast?.getD .empty
    let current := session.run [.submit crosswise]
    (current.AlwaysReturns ↔ ∀ patch ∈ old.diff crosswise, ∀ id,
      some id ∈ Parents.starts old.parentIds patch →
      ¬ crosswise.parentIds.LeadsToCircle id) ∧
    (∀ oldLinks newLinks steps answer, oldLinks.Perm old.parents →
      newLinks.Perm crosswise.parents →
      current.processIn oldLinks newLinks steps = some answer →
      answer = current.process) ∧
    ∀ defect, crosswise.validate
        (.standard : LayoutSettings Float32).maxDepth = .error defect →
      current.process = (.error (.structural defect),
        { current with pending := none }) :=
  ⟨_, rfl, rfl, process_returns_iff rfl [.submit crosswise] rfl⟩

theorem crosswise_idsDifferAbove : crosswise.IdsDifferAbove := by
  have below : ∀ holder name child, crosswise.Fills (holder, name) child →
      child ∈ (crosswise.children holder).map Prod.snd := by
    intro holder name child fills
    obtain ⟨entry, entryIn, isEntry⟩ := List.mem_map.mp fills
    exact List.mem_map.mpr ⟨entry, entryIn, congrArg Prod.snd isEntry⟩
  have children : ([0, 1, 3, 2, 4].map fun holder =>
      (crosswise.children holder).map Prod.snd) = [[1, 3], [2], [4], [], []] := by
    cbv
  have ways : ∀ above handle, crosswise.WayTo above handle →
      (above, handle) ∈ [([], 0), ([0], 1), ([0], 3), ([1, 0], 2), ([3, 0], 4)] := by
    intro above handle way
    induction way with
    | root isRoot =>
        cases isRoot
        exact List.mem_cons_self
    | @child above place child _ fills ih =>
        have childIn := below place.1 place.2 child fills
        simp only [List.map_cons, List.map_nil, List.cons.injEq, and_true] at children
        simp only [List.mem_cons, Prod.mk.injEq, List.not_mem_nil, or_false] at ih
        rcases ih with ⟨rfl, atHolder⟩ | ⟨rfl, atHolder⟩ | ⟨rfl, atHolder⟩ |
          ⟨rfl, atHolder⟩ | ⟨rfl, atHolder⟩ <;>
          rw [atHolder] at childIn ⊢ <;>
          simp_all
  intro above handle way
  have known := ways above handle way
  simp only [List.mem_cons, Prod.mk.injEq, List.not_mem_nil, or_false] at known
  rcases known with ⟨rfl, rfl⟩ | ⟨rfl, rfl⟩ | ⟨rfl, rfl⟩ | ⟨rfl, rfl⟩ | ⟨rfl, rfl⟩ <;>
    simp [Tree.node?, crosswise]

/-- No identity stands above itself in this tree, and yet the session need not
come to an end. -/
theorem not_alwaysReturns_crosswise :
    ¬ ∀ (settings : LayoutSettings Float32) (session : Session Float32)
      (calls : List (Call Float32)) (new : Tree Float32),
      start settings = .ok session →
      (History.ofCalls calls).waiting = some new → new.IdsDifferAbove →
      (session.run calls).AlwaysReturns := by
  intro all
  obtain ⟨session, started⟩ : ∃ session,
      start (.standard : LayoutSettings Float32) = .ok session := ⟨_, rfl⟩
  have returns := all _ session [.submit crosswise] crosswise started rfl
    crosswise_idsDifferAbove
  have follows := follows_run (hintsAgree_of_start started)
    (follows_start started) [.submit crosswise]
  have pending_eq := follows.pending_eq
  have lastTree_eq : (session.run [.submit crosswise]).lastTree = none :=
    follows.lastTree_eq
  have remembers := follows.remembers
  rw [← follows.settings_eq] at remembers
  rw [alwaysReturns_iff remembers pending_eq, lastTree_eq, Option.getD_none]
    at returns
  have patches : Tree.empty.diff crosswise = [.insert "main" none,
      .insert "left" (some "right"), .insert "right" (some "left")] := by cbv
  have patchIn : Patch.insert "left" (some "right") ∈ Tree.empty.diff crosswise := by
    simp [patches]
  have parents : crosswise.parentIds = [("left", "right"), ("right", "left"),
      ("right", "main"), ("left", "main")] := by cbv
  refine returns _ patchIn "right" List.mem_cons_self ⟨"right", .refl, ?_⟩
  have upFromRight : crosswise.parentIds.IsBelow "right" "left" := by
    simp [Parents.IsBelow, parents]
  have upFromLeft : crosswise.parentIds.IsBelow "left" "right" := by
    simp [Parents.IsBelow, parents]
  exact (Relation.TransGen.single upFromRight).tail upFromLeft

end Session

end Flowchart
