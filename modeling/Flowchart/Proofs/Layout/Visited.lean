import Flowchart.Proofs.Layout.Measure
import Flowchart.Proofs.Tree.Located

/-!
# What a pass of measuring comes to

A pass goes down from the root and stops at every node that the cache has.  So
it comes to the nodes with no cached node above them: it finds the arrangements
of those that are cached and makes those of the others.
-/

namespace Flowchart

/-! ## Nodes with nothing known above them -/

namespace Program

section

variable {L : Type}

mutual

/-- The nodes that have no known node above them, parents before children. -/
def visited (known : Program L → Bool) : Program L → List (Program L)
  | program@(.statement _ _) | program@(.result _)
  | program@(.typeDefinition _) => [program]
  | program@(.block _ members) =>
      program :: if known program then [] else visitedMembers known members
  | program@(.decision _ consequent none) =>
      program :: if known program then [] else visited known consequent
  | program@(.decision _ consequent (some alternative)) =>
      program :: if known program then []
        else visited known consequent ++ visited known alternative
  | program@(.selection _ arms) =>
      program :: if known program then [] else visitedArms known arms
  | program@(.loop _ _ body) | program@(.container _ _ body) =>
      program :: if known program then [] else visited known body

def visitedMembers (known : Program L → Bool) :
    List (Program L) → List (Program L)
  | [] => []
  | member :: rest => visited known member ++ visitedMembers known rest

def visitedArms (known : Program L → Bool) :
    List (String × Program L) → List (Program L)
  | [] => []
  | (_, body) :: rest => visited known body ++ visitedArms known rest

end

theorem visitedMembers_eq (known : Program L → Bool)
    (members : List (Program L)) :
    visitedMembers known members = members.flatMap (visited known) := by
  induction members with
  | nil => rfl
  | cons member rest ih => simp [visitedMembers, ih]

theorem visitedArms_eq (known : Program L → Bool)
    (arms : List (String × Program L)) :
    visitedArms known arms = (arms.map Prod.snd).flatMap (visited known) := by
  induction arms with
  | nil => rfl
  | cons arm rest ih => simp [visitedArms, ih]

/-- Below a known node nothing is visited. -/
theorem visited_eq (known : Program L → Bool) (program : Program L) :
    program.visited known = program ::
      if known program then [] else program.children.flatMap (visited known) := by
  cases program with
  | decision label consequent alternative =>
      cases alternative <;> simp [visited, children]
  | _ => simp [visited, children, visitedMembers_eq, visitedArms_eq]

variable {known other : Program L → Bool} {program : Program L}

theorem visited_of_known (isKnown : known program = true) :
    program.visited known = [program] := by
  rw [visited_eq, if_pos isKnown]

theorem visited_of_unknown (isUnknown : known program = false) :
    program.visited known =
      program :: program.children.flatMap (visited known) := by
  rw [visited_eq, if_neg (by simp [isUnknown])]

theorem mem_visited {node : Program L} :
    node ∈ program.visited known ↔ ∃ above, program.Stands above node ∧
      ∀ ancestor ∈ above, known ancestor = false := by
  induction program using childrenInduction with
  | step program ih =>
    constructor
    · intro visited
      rw [visited_eq, List.mem_cons] at visited
      rcases visited with rfl | below
      · exact ⟨[], .root, by simp⟩
      · split at below
        · simp at below
        · rename_i isUnknown
          obtain ⟨child, childIn, inChild⟩ := List.mem_flatMap.mp below
          obtain ⟨above, stands, unknown⟩ := (ih child childIn).mp inChild
          refine ⟨above ++ [program], stands.inside childIn, ?_⟩
          rw [List.forall_mem_append, List.forall_mem_singleton]
          exact ⟨unknown, Bool.eq_false_iff.mpr isUnknown⟩
    · rintro ⟨above, stands, unknown⟩
      rcases stands.cases_root with
        ⟨-, rfl⟩ | ⟨child, childIn, between, rfl, inChild⟩
      · rw [visited_eq]
        exact List.mem_cons_self
      · rw [visited_of_unknown (unknown program (by simp))]
        refine List.mem_cons_of_mem _ (List.mem_flatMap.mpr ⟨child, childIn, ?_⟩)
        exact (ih child childIn).mpr ⟨between, inChild, fun ancestor isAbove =>
          unknown ancestor (List.mem_append_left _ isAbove)⟩

private theorem sublist_flatMap {β γ : Type} {items : List β}
    {fewer more : β → List γ}
    (each : ∀ item ∈ items, (fewer item).Sublist (more item)) :
    (items.flatMap fewer).Sublist (items.flatMap more) := by
  induction items with
  | nil => exact List.Sublist.refl _
  | cons item rest ih =>
      rw [List.flatMap_cons, List.flatMap_cons]
      exact (each item List.mem_cons_self).append (ih fun other otherIn =>
        each other (List.mem_cons_of_mem _ otherIn))

theorem visited_sublist (known : Program L → Bool) (program : Program L) :
    (program.visited known).Sublist program.preorder := by
  induction program using childrenInduction with
  | step program ih =>
    rw [visited_eq, preorder_eq]
    refine List.Sublist.cons_cons _ ?_
    split
    · exact List.nil_sublist _
    · exact sublist_flatMap ih

theorem visited_congr
    (same : ∀ node ∈ program.preorder, known node = other node) :
    program.visited known = program.visited other := by
  induction program using childrenInduction with
  | step program ih =>
    rw [visited_eq, visited_eq, same program program.self_mem_preorder]
    congr 2
    refine List.flatMap_congr fun child childIn => ih child childIn ?_
    exact fun node nodeIn => same node (mem_preorder_of_child childIn nodeIn)

theorem visited_map {M : Type} (change : L → M) (known : Program M → Bool)
    (program : Program L) :
    (program.map change).visited known =
      (program.visited fun node => known (node.map change)).map
        (map change) := by
  induction program using childrenInduction with
  | step program ih =>
    rw [visited_eq, visited_eq, children_map, List.map_cons]
    congr 1
    split
    · rfl
    · rw [List.flatMap_map, List.map_flatMap]
      exact List.flatMap_congr fun child childIn => ih child childIn

/-! ## Found and made -/

/-- The known nodes that are visited. -/
def found (known : Program L → Bool) (program : Program L) :
    List (Program L) :=
  (program.visited known).filter known

/-- The nodes visited that are not known. -/
def made (known : Program L → Bool) (program : Program L) :
    List (Program L) :=
  (program.visited known).filter fun node => !known node

theorem mem_found {node : Program L} :
    node ∈ program.found known ↔ known node = true ∧
      ∃ above, program.Stands above node ∧
        ∀ ancestor ∈ above, known ancestor = false := by
  rw [found, List.mem_filter, mem_visited, and_comm]

theorem mem_made {node : Program L} :
    node ∈ program.made known ↔ known node = false ∧
      ∃ above, program.Stands above node ∧
        ∀ ancestor ∈ above, known ancestor = false := by
  rw [made, List.mem_filter, mem_visited, and_comm, Bool.not_eq_true']

theorem found_sublist (known : Program L → Bool) (program : Program L) :
    (program.found known).Sublist program.preorder :=
  List.filter_sublist.trans (visited_sublist known program)

theorem made_sublist (known : Program L → Bool) (program : Program L) :
    (program.made known).Sublist program.preorder :=
  List.filter_sublist.trans (visited_sublist known program)

theorem found_of_known (isKnown : known program = true) :
    program.found known = [program] := by
  rw [found, visited_of_known isKnown, List.filter_cons_of_pos isKnown,
    List.filter_nil]

theorem made_of_known (isKnown : known program = true) :
    program.made known = [] := by
  rw [made, visited_of_known isKnown, List.filter_cons_of_neg (by simp [isKnown]),
    List.filter_nil]

theorem length_found (isUnknown : known program = false) :
    (program.found known).length =
      (program.children.map fun child => (child.found known).length).sum := by
  rw [found, visited_of_unknown isUnknown,
    List.filter_cons_of_neg (by simp [isUnknown]), List.filter_flatMap,
    List.length_flatMap]
  rfl

theorem length_made (isUnknown : known program = false) :
    (program.made known).length =
      (program.children.map fun child => (child.made known).length).sum
        + 1 := by
  rw [made, visited_of_unknown isUnknown,
    List.filter_cons_of_pos (by simp [isUnknown]), List.length_cons,
    List.filter_flatMap, List.length_flatMap]
  rfl

theorem found_congr
    (same : ∀ node ∈ program.preorder, known node = other node) :
    program.found known = program.found other := by
  rw [found, found, visited_congr same]
  refine List.filter_congr fun node visited => same node ?_
  exact (visited_sublist other program).subset visited

theorem made_congr
    (same : ∀ node ∈ program.preorder, known node = other node) :
    program.made known = program.made other := by
  rw [made, made, visited_congr same]
  refine List.filter_congr fun node visited => ?_
  rw [same node ((visited_sublist other program).subset visited)]

theorem found_map {M : Type} (change : L → M) (known : Program M → Bool) :
    (program.map change).found known =
      (program.found fun node => known (node.map change)).map
        (map change) := by
  rw [found, visited_map, List.filter_map]
  rfl

theorem made_map {M : Type} (change : L → M) (known : Program M → Bool) :
    (program.map change).made known =
      (program.made fun node => known (node.map change)).map
        (map change) := by
  rw [made, visited_map, List.filter_map]
  rfl

end

end Program

/-! ## Counting -/

namespace ArrangementCache

variable {α : Type}

/-- Whether the cache has an arrangement for a node. -/
def has (cache : ArrangementCache α) (node : Program (Label α)) : Bool :=
  cache.contains node.label.id

/-- So many arrangements were found and so many made since then. -/
structure Counts (cache later : ArrangementCache α) (found made : Nat) : Prop where
  hits : later.hits = cache.hits + found
  misses : later.misses = cache.misses + made

theorem Counts.trans {cache between later : ArrangementCache α}
    {found made moreFound moreMade : Nat} (first : cache.Counts between found made)
    (second : between.Counts later moreFound moreMade) :
    cache.Counts later (found + moreFound) (made + moreMade) where
  hits := by rw [second.hits, first.hits, Nat.add_assoc]
  misses := by rw [second.misses, first.misses, Nat.add_assoc]

theorem has_congr {cache later : ArrangementCache α} {node : Program (Label α)}
    (same : later.get? node.label.id = cache.get? node.label.id) :
    later.has node = cache.has node := by
  rw [has, has, contains, contains, same]

end ArrangementCache

namespace Measuring

variable {α β γ : Type} {cache later : ArrangementCache α}

/-- A step that gives a value comes from one that does. -/
theorem run_bind_eq_ok {first : Measuring α β} {next : β → Measuring α γ}
    {value : γ} (ran : (first >>= next).run.run cache = (.ok value, later)) :
    ∃ middle between, first.run.run cache = (.ok middle, between) ∧
      (next middle).run.run between = (.ok value, later) := by
  rcases isFirst : first.run.run cache with ⟨fault | middle, between⟩
  · have stopped : (first >>= next).run.run cache = (.error fault, between) := by
      simp [ExceptT.run_bind, isFirst]
      rfl
    rw [stopped] at ran
    cases ran
  · have wentOn : (first >>= next).run.run cache =
        (next middle).run.run between := by
      simp [ExceptT.run_bind, isFirst]
      rfl
    exact ⟨middle, between, rfl, wentOn ▸ ran⟩

/-- A result that is only passed on leaves the cache as it is. -/
theorem run_except_eq_ok {result : Except Fault β} {value : β}
    (ran : (liftM result : Measuring α β).run.run cache = (.ok value, later)) :
    later = cache := by
  cases result with
  | error fault => cases ran
  | ok result =>
      cases ran
      rfl

end Measuring

namespace Program

variable {α : Type} [Scalar α] {settings : LayoutSettings α}

theorem measureMembers_counts {members : List (Program (Label α))}
    (each : ∀ member ∈ members, member.ids.Nodup →
      ∀ cache : ArrangementCache α, cache.Sound settings member →
        ∀ arrangement later,
        (member.measure settings).run.run cache = (.ok arrangement, later) →
        cache.Counts later (member.found cache.has).length
          (member.made cache.has).length)
    (distinct : (members.flatMap ids).Nodup) {cache : ArrangementCache α}
    (sound : ∀ member ∈ members, cache.Sound settings member)
    {arrangements : List (Arrangement α)} {later : ArrangementCache α}
    (ran : (measureMembers settings members).run.run cache =
      (.ok arrangements, later)) :
    cache.Counts later
      (members.map fun member => (member.found cache.has).length).sum
      (members.map fun member => (member.made cache.has).length).sum := by
  induction members generalizing cache arrangements later with
  | nil =>
      cases ran
      exact ⟨rfl, rfl⟩
  | cons member rest ih =>
      rw [List.flatMap_cons, List.nodup_append] at distinct
      obtain ⟨memberNodup, restNodup, apart⟩ := distinct
      rw [measureMembers] at ran
      obtain ⟨arrangement, between, isMember, restRan⟩ :=
        Measuring.run_bind_eq_ok ran
      obtain ⟨others, last, isRest, ended⟩ := Measuring.run_bind_eq_ok restRan
      cases ended
      have memberSound := sound member List.mem_cons_self
      have counted := each member List.mem_cons_self memberNodup cache memberSound
        arrangement between isMember
      have untouched := (measure_gives memberNodup memberSound).untouched
      rw [isMember] at untouched
      -- the nodes of the other members are as they were in the cache
      have apartFrom : ∀ other ∈ rest, ∀ id ∈ other.ids, id ∉ member.ids :=
        fun other otherIn id idIn inMember => apart id inMember id
          (List.mem_flatMap.mpr ⟨other, otherIn, idIn⟩) rfl
      have stays : ∀ other ∈ rest, ∀ node ∈ other.preorder,
          between.has node = cache.has node := by
        intro other otherIn node nodeIn
        exact ArrangementCache.has_congr (untouched _
          (apartFrom other otherIn _ (List.mem_map.mpr ⟨node, nodeIn, rfl⟩)))
      have restCounted := ih
        (fun other otherIn => each other (List.mem_cons_of_mem _ otherIn))
        restNodup
        (fun other otherIn => (sound other (List.mem_cons_of_mem _ otherIn)).of_untouched
          untouched (apartFrom other otherIn))
        isRest
      have sameFound : (rest.map fun other => (other.found between.has).length) =
          rest.map fun other => (other.found cache.has).length :=
        List.map_congr_left fun other otherIn => by
          rw [found_congr (stays other otherIn)]
      have sameMade : (rest.map fun other => (other.made between.has).length) =
          rest.map fun other => (other.made cache.has).length :=
        List.map_congr_left fun other otherIn => by
          rw [made_congr (stays other otherIn)]
      rw [sameFound, sameMade] at restCounted
      rw [List.map_cons, List.map_cons, List.sum_cons, List.sum_cons]
      exact counted.trans restCounted

/-- A pass that succeeds finds the cached nodes that it comes to, and makes the
others that it comes to. -/
theorem measure_counts {program : Program (Label α)}
    (distinct : program.ids.Nodup) {cache later : ArrangementCache α}
    (sound : cache.Sound settings program) {arrangement : Arrangement α}
    (ran : (program.measure settings).run.run cache = (.ok arrangement, later)) :
    cache.Counts later (program.found cache.has).length
      (program.made cache.has).length := by
  induction program using childrenInduction generalizing cache later arrangement with
  | step program ih =>
    obtain ⟨assemble, measure_eq, -⟩ := exists_measure_eq settings program
    rw [measure_eq, Measuring.run_orMake] at ran
    cases found : cache.get? program.label.id with
    | some kept =>
        have isKnown : cache.has program = true := by
          rw [ArrangementCache.has, ArrangementCache.contains, found]
          rfl
        rw [found] at ran
        cases ran
        rw [found_of_known isKnown, made_of_known isKnown]
        exact ⟨rfl, rfl⟩
    | none =>
        have isUnknown : cache.has program = false := by
          rw [ArrangementCache.has, ArrangementCache.contains, found]
          rfl
        rw [found] at ran
        obtain ⟨made, between, isMade, isKept⟩ := Measuring.run_bind_eq_ok ran
        obtain ⟨below, last, isBelow, assembled⟩ :=
          Measuring.run_bind_eq_ok isMade
        obtain rfl := Measuring.run_except_eq_ok assembled
        cases isKept
        rw [ids_eq, List.nodup_cons] at distinct
        have counted := measureMembers_counts
          (fun child childIn nodup cache sound arrangement later ran =>
            ih child childIn nodup sound ran)
          distinct.2 (fun child childIn => sound.child childIn) isBelow
        rw [length_found isUnknown, length_made isUnknown]
        exact ⟨counted.hits, by
          rw [← Nat.add_assoc, ← counted.misses]
          rfl⟩

end Program

end Flowchart
