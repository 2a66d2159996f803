import Flowchart.Proofs.Revision.Runs

/-!
# Whether going up comes to an end

Which arrangements to drop is found by going up from identity to identity before
a tree is checked.  Where an identity occurs twice, it depends on the order in
which the pairs are gathered whose child it is.  There is an order in which a
way up has no end exactly if it can come upon an identity that lies above
itself.
-/

namespace Flowchart

namespace Parents

variable {parents : Parents}

/-! ## Steps -/

theorem climb_none (steps : Nat) : parents.climb steps none = some [] := by
  cases steps <;> rfl

theorem climb_some (steps : Nat) (id : NodeId) :
    parents.climb (steps + 1) (some id) =
      (parents.climb steps (parents.lookup id)).map (id :: ·) :=
  rfl

theorem climb_mono {steps more : Nat} {start : Option NodeId} {way : List NodeId}
    (ends : parents.climb steps start = some way) (le : steps ≤ more) :
    parents.climb more start = some way := by
  induction steps generalizing start more way with
  | zero =>
      cases start with
      | none => rwa [climb_none] at ends ⊢
      | some id => cases ends
  | succ steps ih =>
      cases start with
      | none => rwa [climb_none] at ends ⊢
      | some id =>
          obtain ⟨more, rfl⟩ := Nat.exists_eq_add_of_le' (Nat.le_of_add_left_le le)
          rw [climb_some] at ends ⊢
          obtain ⟨rest, restEnds, rfl⟩ := Option.map_eq_some_iff.mp ends
          rw [ih restEnds (Nat.le_of_succ_le_succ le)]
          rfl

/-- A way that comes to an end is the chain of all above its start. -/
theorem chain_of_climb {steps fuel : Nat} {start : Option NodeId}
    {way : List NodeId} (ends : parents.climb steps start = some way)
    (le : steps ≤ fuel) : parents.chain fuel start = way := by
  induction steps generalizing start fuel way with
  | zero =>
      cases start with
      | none =>
          rw [climb_none] at ends
          rw [chain_none, Option.some.inj ends]
      | some id => cases ends
  | succ steps ih =>
      cases start with
      | none =>
          rw [climb_none] at ends
          rw [chain_none, Option.some.inj ends]
      | some id =>
          obtain ⟨fuel, rfl⟩ := Nat.exists_eq_add_of_le' (Nat.le_of_add_left_le le)
          rw [climb_some] at ends
          obtain ⟨rest, restEnds, rfl⟩ := Option.map_eq_some_iff.mp ends
          rw [chain_some, ih restEnds (Nat.le_of_succ_le_succ le)]

/-- A chain that one more step does not change is not changed by any. -/
theorem chain_of_whole {fuel more : Nat} {start : Option NodeId}
    (whole : parents.chain (fuel + 1) start = parents.chain fuel start)
    (le : fuel ≤ more) : parents.chain more start = parents.chain fuel start := by
  induction fuel generalizing start more with
  | zero =>
      cases start with
      | none => rw [chain_none, chain_none]
      | some id => cases whole
  | succ fuel ih =>
      cases start with
      | none => rw [chain_none, chain_none]
      | some id =>
          obtain ⟨more, rfl⟩ := Nat.exists_eq_add_of_le' (Nat.le_of_add_left_le le)
          rw [chain_some, chain_some, List.cons.injEq] at whole
          rw [chain_some, chain_some, ih whole.2 (Nat.le_of_succ_le_succ le)]

theorem climb_of_whole {fuel : Nat} {start : Option NodeId}
    (whole : parents.chain (fuel + 1) start = parents.chain fuel start) :
    parents.climb fuel start = some (parents.chain fuel start) := by
  induction fuel generalizing start with
  | zero =>
      cases start with
      | none => rfl
      | some id => cases whole
  | succ fuel ih =>
      cases start with
      | none => rfl
      | some id =>
          rw [chain_some, chain_some, List.cons.injEq] at whole
          rw [climb_some, ih whole.2]
          rfl

/-- Only the pairs that count matter. -/
theorem climb_congr {other : Parents}
    (same : ∀ id, parents.lookup id = other.lookup id) (steps : Nat)
    (start : Option NodeId) :
    parents.climb steps start = other.climb steps start := by
  induction steps generalizing start with
  | zero => cases start <;> rfl
  | succ steps ih =>
      cases start with
      | none => rfl
      | some id => rw [climb_some, climb_some, same, ih]

theorem starts_congr {other : Parents}
    (same : ∀ id, parents.lookup id = other.lookup id) (patch : Patch) :
    starts parents patch = starts other patch := by
  cases patch with
  | remove id => rw [starts, starts, same]
  | _ => rfl

/-! ## Circles -/

/-- An identity is that of a child of another one. -/
def IsBelow (parents : Parents) (child parent : NodeId) : Prop :=
  (child, parent) ∈ parents

/-- Going up from an identity one may come upon one that lies above itself. -/
def LeadsToCircle (parents : Parents) (id : NodeId) : Prop :=
  ∃ other, Relation.ReflTransGen parents.IsBelow id other ∧
    Relation.TransGen parents.IsBelow other other

theorem isBelow_of_lookup {child parent : NodeId}
    (isParent : parents.lookup child = some parent) :
    parents.IsBelow child parent := by
  obtain ⟨before, after, listed, -⟩ := List.lookup_eq_some_iff.mp isParent
  rw [IsBelow, listed]
  exact List.mem_append_right _ List.mem_cons_self

theorem LeadsToCircle.exists_parent {id : NodeId} (leads : parents.LeadsToCircle id) :
    ∃ parent, parents.IsBelow id parent ∧ parents.LeadsToCircle parent := by
  obtain ⟨other, up, circle⟩ := leads
  rcases Relation.ReflTransGen.cases_head up with rfl | ⟨parent, isBelow, further⟩
  · obtain ⟨parent, isBelow, back⟩ := Relation.TransGen.head'_iff.mp circle
    exact ⟨parent, isBelow, id, back, circle⟩
  · exact ⟨parent, isBelow, other, further, circle⟩

/-- A way up that cannot come upon a circle has an end. -/
theorem exists_climb {id : NodeId} (straight : ¬ parents.LeadsToCircle id) :
    ∃ steps way, parents.climb steps (some id) = some way := by
  -- what lies above the identity is finite, so "above" is well founded there
  let Above := {other // Relation.ReflTransGen parents.IsBelow id other}
  let isAbove : Above → Above → Prop := fun upper lower =>
    Relation.TransGen parents.IsBelow lower.1 upper.1
  have finite : Finite Above := by
    refine Set.Finite.subset (List.finite_toSet (id :: parents.map Prod.snd))
      fun other up => ?_
    rcases Relation.ReflTransGen.cases_tail up with rfl | ⟨lower, -, isBelow⟩
    · exact List.mem_cons_self
    · exact List.mem_cons_of_mem _ (List.mem_map_of_mem isBelow)
  have transitive : IsTrans Above isAbove := ⟨fun _ _ _ first second => second.trans first⟩
  have irreflexive : Std.Irrefl isAbove :=
    ⟨fun other circle => straight ⟨other.1, other.2, circle⟩⟩
  have ends : ∀ other : Above,
      ∃ steps way, parents.climb steps (some other.1) = some way := by
    intro other
    induction other using (Finite.wellFounded_of_trans_of_irrefl isAbove).induction with
    | _ other ih =>
      cases isParent : parents.lookup other.1 with
      | none => exact ⟨1, [other.1], by rw [climb_some, isParent]; rfl⟩
      | some parent =>
          have isBelow := isBelow_of_lookup isParent
          obtain ⟨steps, way, parentEnds⟩ :=
            ih ⟨parent, other.2.tail isBelow⟩ (.single isBelow)
          exact ⟨steps + 1, other.1 :: way, by
            rw [climb_some, isParent, parentEnds]; rfl⟩
  exact ends ⟨id, .refl⟩

/-! ## All ways up -/

theorem climbAll_eq_some {old new : Parents} {steps : Nat} {patches : List Patch}
    {stale : List NodeId} :
    climbAll old new steps patches = some stale ↔
      ∃ ways : List (List NodeId),
        (patches.flatMap (starts old)).map (new.climb steps) = ways.map some ∧
          ways.flatten = stale := by
  rw [climbAll, Option.map_eq_some_iff]
  simp only [mapM_eq_some_iff]

theorem climbAll_congr {old new earlier later : Parents}
    (sameOld : ∀ id, old.lookup id = earlier.lookup id)
    (sameNew : ∀ id, new.lookup id = later.lookup id) (steps : Nat)
    (patches : List Patch) :
    climbAll old new steps patches = climbAll earlier later steps patches := by
  rw [climbAll, climbAll, funext (climb_congr sameNew steps),
    funext (starts_congr sameOld)]

/-- Steps enough for every way are enough for all. -/
theorem exists_climbAll {old new : Parents} {patches : List Patch}
    (each : ∀ patch ∈ patches, ∀ start ∈ starts old patch,
      ∃ steps way, new.climb steps start = some way) :
    ∃ steps stale, climbAll old new steps patches = some stale := by
  have enough : ∀ begun : List (Option NodeId),
      (∀ start ∈ begun, ∃ steps way, new.climb steps start = some way) →
      ∃ steps, ∀ start ∈ begun, ∃ way, new.climb steps start = some way := by
    intro begun each
    induction begun with
    | nil => exact ⟨0, by simp⟩
    | cons start rest ih =>
        obtain ⟨steps, way, ends⟩ := each start List.mem_cons_self
        obtain ⟨more, restEnd⟩ :=
          ih fun other otherIn => each other (List.mem_cons_of_mem _ otherIn)
        refine ⟨max steps more, fun other otherIn => ?_⟩
        rcases List.mem_cons.mp otherIn with rfl | inRest
        · exact ⟨way, climb_mono ends (Nat.le_max_left _ _)⟩
        · obtain ⟨otherWay, otherEnds⟩ := restEnd other inRest
          exact ⟨otherWay, climb_mono otherEnds (Nat.le_max_right _ _)⟩
  obtain ⟨steps, ends⟩ := enough (patches.flatMap (starts old)) fun start startIn => by
    obtain ⟨patch, patchIn, isStart⟩ := List.mem_flatMap.mp startIn
    exact each patch patchIn start isStart
  refine ⟨steps, _, climbAll_eq_some.mpr
    ⟨(patches.flatMap (starts old)).map fun start =>
      (new.climb steps start).getD [], ?_, rfl⟩⟩
  rw [List.map_map]
  refine List.map_congr_left fun start startIn => ?_
  obtain ⟨way, isWay⟩ := ends start startIn
  rw [Function.comp_apply, isWay, Option.getD_some]

theorem exists_climb_of_climbAll {old new : Parents} {steps : Nat}
    {patches : List Patch} {stale : List NodeId}
    (all : climbAll old new steps patches = some stale) {patch : Patch}
    (patchIn : patch ∈ patches) {start : Option NodeId}
    (isStart : start ∈ starts old patch) :
    ∃ way, new.climb steps start = some way := by
  obtain ⟨ways, areWays, -⟩ := climbAll_eq_some.mp all
  have climbed : new.climb steps start ∈ ways.map some :=
    areWays ▸ List.mem_map_of_mem (List.mem_flatMap.mpr ⟨patch, patchIn, isStart⟩)
  obtain ⟨way, -, isWay⟩ := List.mem_map.mp climbed
  exact ⟨way, isWay.symm⟩

/-- Where no chain is cut off, the ways up make what the patches affect. -/
theorem climbAll_eq_affected {old new : Parents} {steps : Nat}
    {patches : List Patch} {stale : List NodeId}
    (all : climbAll old new steps patches = some stale)
    (whole : ∀ start, new.chain (new.length + 1 + 1) start =
      new.chain (new.length + 1) start) :
    stale = patches.flatMap (affected old new) := by
  obtain ⟨ways, areWays, rfl⟩ := climbAll_eq_some.mp all
  have upFrom_eq : ∀ start way, new.climb steps start = some way →
      new.upFrom start = way := by
    intro start way isWay
    rw [upFrom, ← chain_of_whole (whole start) (Nat.le_max_right steps _),
      chain_of_climb isWay (Nat.le_max_left _ _)]
  have ups : (patches.flatMap (starts old)).map new.upFrom = ways := by
    refine List.map_injective_iff.mpr (Option.some_injective _) ?_
    rw [← areWays, List.map_map]
    refine List.map_congr_left fun start startIn => ?_
    obtain ⟨patch, patchIn, isStart⟩ := List.mem_flatMap.mp startIn
    obtain ⟨way, isWay⟩ := exists_climb_of_climbAll all patchIn isStart
    rw [Function.comp_apply, isWay, upFrom_eq start way isWay]
  rw [← ups, ← List.flatMap_def, List.flatMap_assoc]
  exact List.flatMap_congr fun patch _ => (affected_eq old new patch).symm

end Parents

/-! ## Pairs in any order -/

namespace Tree

variable {α : Type} {tree : Tree α} {links : List (Handle × Handle)}

theorem mem_parentIdsIn {child parent : NodeId} :
    (child, parent) ∈ tree.parentIdsIn links ↔
      ∃ link ∈ links, ∃ node holder, tree.node? link.1 = some node ∧
        tree.node? link.2 = some holder ∧ node.id = child ∧ holder.id = parent := by
  rw [parentIdsIn, List.mem_reverse, List.mem_filterMap]
  refine exists_congr fun link => and_congr_right fun _ => ?_
  simp [Option.bind_eq_some_iff]

theorem parentIdsIn_append (first second : List (Handle × Handle)) :
    tree.parentIdsIn (first ++ second) =
      tree.parentIdsIn second ++ tree.parentIdsIn first := by
  rw [parentIdsIn, List.filterMap_append, List.reverse_append]
  rfl

theorem mem_parentIdsIn_of_perm {other : List (Handle × Handle)}
    (perm : links.Perm other) {pair : NodeId × NodeId} :
    pair ∈ tree.parentIdsIn links ↔ pair ∈ tree.parentIdsIn other := by
  rw [parentIdsIn, parentIdsIn, List.mem_reverse, List.mem_reverse]
  exact (perm.filterMap _).mem_iff

/-- Gathering the pairs that lead to a circle last has every way go there. -/
theorem exists_circling (tree : Tree α) : ∃ links : List (Handle × Handle),
    links.Perm tree.parents ∧ ∀ id, tree.parentIds.LeadsToCircle id →
      ∀ steps, (tree.parentIdsIn links).climb steps (some id) = none := by
  classical
  let leads : Handle × Handle → Bool := fun link =>
    decide (∃ holder, tree.node? link.2 = some holder ∧
      tree.parentIds.LeadsToCircle holder.id)
  have exists_next : ∀ id, tree.parentIds.LeadsToCircle id → ∃ parent,
      (tree.parentIdsIn (tree.parents.filter leads)).lookup id = some parent ∧
        tree.parentIds.LeadsToCircle parent := by
    intro id leadsId
    obtain ⟨parent, isBelow, leadsParent⟩ := leadsId.exists_parent
    obtain ⟨link, linkIn, node, holder, isNode, isHolder, rfl, rfl⟩ :=
      mem_parentIdsIn.mp isBelow
    have listed : (node.id, holder.id) ∈
        tree.parentIdsIn (tree.parents.filter leads) :=
      mem_parentIdsIn.mpr ⟨link, List.mem_filter.mpr
        ⟨linkIn, decide_eq_true ⟨holder, isHolder, leadsParent⟩⟩,
        node, holder, isNode, isHolder, rfl, rfl⟩
    obtain ⟨next, isNext⟩ := Option.isSome_iff_exists.mp
      (List.lookup_isSome_iff.mpr ⟨_, listed, beq_self_eq_true node.id⟩)
    refine ⟨next, isNext, ?_⟩
    obtain ⟨other, otherIn, -, above, -, isAbove, -, rfl⟩ :=
      mem_parentIdsIn.mp (Parents.isBelow_of_lookup isNext)
    obtain ⟨found, isFound, leadsFound⟩ :=
      of_decide_eq_true (List.mem_filter.mp otherIn).2
    obtain rfl := Option.some.inj (isAbove.symm.trans isFound)
    exact leadsFound
  refine ⟨tree.parents.filter (fun link => !leads link) ++ tree.parents.filter leads,
    ?_, fun id leadsId steps => ?_⟩
  · exact List.perm_append_comm.trans (List.filter_append_perm leads tree.parents)
  · induction steps generalizing id with
    | zero => rfl
    | succ steps ih =>
        obtain ⟨next, isNext, leadsNext⟩ := exists_next id leadsId
        rw [Parents.climb_some, parentIdsIn_append, List.lookup_append, isNext,
          Option.some_or, ← parentIdsIn_append, ih next leadsNext]
        rfl

variable {program : Located α}

/-- In a tree that is well formed the order does not matter. -/
theorem Bears.lookup_in (bears : tree.Bears program)
    (perm : links.Perm tree.parents) (id : NodeId) :
    (tree.parentIdsIn links).lookup id = tree.parentIds.lookup id := by
  have isPerm : (tree.parentIdsIn links).Perm tree.parentIds :=
    (List.reverse_perm _).trans ((perm.filterMap _).trans (List.reverse_perm _).symm)
  have distinct := (List.nodup_cons.mp bears.parents_distinct).2
  refine Option.ext fun parent => ?_
  rw [Keyed.lookup_eq_some ((isPerm.map Prod.fst).nodup_iff.mpr distinct),
    Keyed.lookup_eq_some distinct, isPerm.mem_iff]

end Tree

end Flowchart
