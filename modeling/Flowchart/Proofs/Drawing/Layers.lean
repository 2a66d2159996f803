import Flowchart.Drawing.Layer
import Mathlib

/-!
# Drawings shown by layers

Adding elements one after the other splits them into runs on one layer.  Where the
layers only rise, as after sorting, a layer is a single run; and since sorting keeps
the order within a layer, its group shows the elements of the layer as they were
drawn.
-/

namespace Flowchart

theorem Layer.rank_injective : Layer.rank.Injective := by
  intro layer other same
  cases layer <;> cases other <;> first | rfl | cases same

/-- The elements of a group with their layer. -/
def LayerGroup.items (group : LayerGroup) : Layered :=
  group.elements.map (Prod.mk group.layer)

/-! ## Gathering -/

namespace Gathering

variable {gathering : Gathering} {drawn : Layered}

/-- What a gathering of drawn elements has: all elements in their order, and no
two groups side by side on one layer. -/
structure Gathers (gathering : Gathering) (drawn : Layered) : Prop where
  items : gathering.groups.flatMap LayerGroup.items = drawn
  filled : ∀ group ∈ gathering.groups, group.elements ≠ []
  changing : (gathering.groups.map LayerGroup.layer).IsChain (· ≠ ·)
  begun : gathering.current = none → gathering.closed = []

theorem gathers_start : start.Gathers [] where
  items := rfl
  filled := by simp [start, groups]
  changing := .nil
  begun _ := rfl

theorem groups_opened {layer : Layer} {element : Markup} :
    (gathering.opened layer element).groups =
      gathering.groups ++ [⟨layer, [element]⟩] := rfl

/-- A group can be begun with an element of another layer than the last one's. -/
theorem Gathers.opened (gathers : gathering.Gathers drawn) {layer : Layer}
    (isNew : ∀ last ∈ gathering.groups.getLast?, last.layer ≠ layer)
    (element : Markup) :
    (gathering.opened layer element).Gathers (drawn ++ [(layer, element)]) where
  items := by
    rw [groups_opened, List.flatMap_append, gathers.items]
    rfl
  filled := by
    intro group groupIn
    rcases List.mem_append.mp groupIn with isEarlier | isLast
    · exact gathers.filled group isEarlier
    · obtain rfl := List.mem_singleton.mp isLast
      exact List.cons_ne_nil _ _
  changing := by
    have bordering : ∀ last ∈ (gathering.groups.map LayerGroup.layer).getLast?,
        ∀ next ∈ [layer].head?, last ≠ next := by
      simpa [List.getLast?_map] using isNew
    rw [groups_opened, List.map_append]
    exact gathers.changing.append (.singleton layer) bordering
  begun isNone := by cases isNone

/-- Adding an element keeps what was gathered. -/
theorem Gathers.add (gathers : gathering.Gathers drawn) (item : Layer × Markup) :
    (gathering.add item).Gathers (drawn ++ [item]) := by
  obtain ⟨layer, element⟩ := item
  obtain ⟨closed, current⟩ := gathering
  cases current with
  | none =>
      have isEmpty : closed = [] := gathers.begun rfl
      exact gathers.opened (by simp [groups, isEmpty]) element
  | some group =>
      by_cases isSame : group.layer = layer
      case neg =>
        simp only [Gathering.add, if_neg isSame]
        exact gathers.opened (by simpa [groups] using isSame) element
      case pos =>
        obtain ⟨_, elements⟩ := group
        subst isSame
        simp only [Gathering.add, if_true]
        refine ⟨?items, ?filled, ?changing, fun isNone => by cases isNone⟩
        case items => simp [groups, LayerGroup.items, ← gathers.items]
        case changing => simpa [groups] using gathers.changing
        case filled =>
          intro group groupIn
          rcases List.mem_append.mp groupIn with isClosed | isCurrent
          · exact gathers.filled group (List.mem_append_left _ isClosed)
          · obtain rfl := List.mem_singleton.mp isCurrent
            simp

theorem Gathers.foldl_add (gathers : gathering.Gathers drawn) (more : Layered) :
    (more.foldl Gathering.add gathering).Gathers (drawn ++ more) := by
  induction more generalizing gathering drawn with
  | nil => simpa using gathers
  | cons item rest ih => simpa using ih (gathers.add item)

/-- Sorted elements are gathered into groups on higher and higher layers. -/
theorem Gathers.pairwise_rank (gathers : gathering.Gathers drawn)
    (isSorted : drawn.Pairwise fun left right => left.1.rank ≤ right.1.rank) :
    (gathering.groups.map LayerGroup.layer).Pairwise fun lower upper =>
      lower.rank < upper.rank := by
  have level : (gathering.groups.map LayerGroup.layer).Pairwise fun lower upper =>
      lower.rank ≤ upper.rank := by
    rw [← gathers.items, List.pairwise_flatMap] at isSorted
    refine List.pairwise_map.mpr
      (isSorted.2.imp_of_mem fun {lower upper} lowerIn upperIn below => ?_)
    obtain ⟨first, firstIn⟩ :=
      List.exists_mem_of_ne_nil _ (gathers.filled lower lowerIn)
    obtain ⟨second, secondIn⟩ :=
      List.exists_mem_of_ne_nil _ (gathers.filled upper upperIn)
    exact below _ (List.mem_map_of_mem firstIn) _ (List.mem_map_of_mem secondIn)
  have rising : (gathering.groups.map LayerGroup.layer).IsChain fun lower upper =>
      lower.rank < upper.rank := by
    refine List.isChain_iff_forall_rel_of_append_cons_cons.mpr
      fun lower upper before after isSplit => ?_
    have notAbove :=
      List.isChain_iff_forall_rel_of_append_cons_cons.mp level.isChain isSplit
    have differs :=
      List.isChain_iff_forall_rel_of_append_cons_cons.mp gathers.changing isSplit
    exact Nat.lt_of_le_of_ne notAbove fun same =>
      differs (Layer.rank_injective same)
  have : Trans (fun lower upper : Layer => lower.rank < upper.rank)
      (fun lower upper : Layer => lower.rank < upper.rank)
      (fun lower upper : Layer => lower.rank < upper.rank) := ⟨Nat.lt_trans⟩
  exact List.isChain_iff_pairwise.mp rising

end Gathering

/-! ## Sorting -/

namespace Layered

theorem onLayer_eq_map_filter (drawn : Layered) (layer : Layer) :
    drawn.onLayer layer =
      (drawn.filter fun item => item.1 = layer).map Prod.snd := by
  rw [onLayer, ← List.filterMap_eq_map, ← List.filterMap_eq_filter,
    List.filterMap_filterMap]
  refine List.filterMap_congr fun item _ => ?_
  by_cases isOn : item.1 = layer <;> simp [isOn, Option.guard]

theorem sorted_perm (drawn : Layered) : drawn.sorted.Perm drawn :=
  List.mergeSort_perm _ _

theorem pairwise_sorted (drawn : Layered) :
    drawn.sorted.Pairwise fun left right => left.1.rank ≤ right.1.rank := by
  refine (List.pairwise_mergeSort (fun _ _ _ => ?_) (fun _ _ => ?_) drawn).imp
    of_decide_eq_true
  · simpa using Nat.le_trans
  · simpa using Nat.le_total _ _

/-- Sorting keeps the elements of a layer in their order. -/
theorem onLayer_sorted (drawn : Layered) (layer : Layer) :
    drawn.sorted.onLayer layer = drawn.onLayer layer := by
  have isLevel : (drawn.filter fun item => item.1 = layer).Pairwise
      fun left right => decide (left.1.rank ≤ right.1.rank) = true := by
    refine List.pairwise_of_forall_mem_list fun left leftIn right rightIn => ?_
    rw [of_decide_eq_true (List.mem_filter.mp leftIn).2,
      of_decide_eq_true (List.mem_filter.mp rightIn).2]
    exact decide_eq_true le_rfl
  have kept : (drawn.filter fun item => item.1 = layer).Sublist drawn.sorted :=
    List.sublist_mergeSort (fun _ _ _ => by simpa using Nat.le_trans)
      (fun _ _ => by simpa using Nat.le_total _ _) isLevel List.filter_sublist
  have sublist := kept.filter fun item => decide (item.1 = layer)
  rw [List.filter_filter] at sublist
  simp only [Bool.and_self] at sublist
  rw [onLayer_eq_map_filter, onLayer_eq_map_filter,
    sublist.eq_of_length ((drawn.sorted_perm.filter _).length_eq).symm]

theorem onLayer_append (drawn more : Layered) (layer : Layer) :
    onLayer (drawn ++ more) layer = drawn.onLayer layer ++ more.onLayer layer :=
  List.filterMap_append

theorem onLayer_items (group : LayerGroup) (layer : Layer) :
    onLayer group.items layer =
      if group.layer = layer then group.elements else [] := by
  rw [onLayer, LayerGroup.items, List.filterMap_map]
  split
  · rename_i isOn
    simp [isOn]
  · rename_i notOn
    simp [notOn]

/-- Among groups on different layers, a group has all elements of its layer. -/
theorem onLayer_flatMap_items {groups : List LayerGroup}
    (distinct : (groups.map LayerGroup.layer).Nodup) {group : LayerGroup}
    (groupIn : group ∈ groups) :
    onLayer (groups.flatMap LayerGroup.items) group.layer = group.elements := by
  induction groups with
  | nil => cases groupIn
  | cons first rest ih =>
      rw [List.map_cons, List.nodup_cons] at distinct
      rw [List.flatMap_cons, onLayer_append, onLayer_items]
      rcases List.mem_cons.mp groupIn with rfl | inRest
      · have noneLeft : onLayer (rest.flatMap LayerGroup.items) group.layer = [] := by
          refine List.filterMap_eq_nil_iff.mpr fun item itemIn => ?_
          obtain ⟨other, otherIn, isItem⟩ := List.mem_flatMap.mp itemIn
          obtain ⟨element, -, rfl⟩ := List.mem_map.mp isItem
          refine if_neg fun same => distinct.1 ?_
          exact List.mem_map.mpr ⟨other, otherIn, same⟩
        rw [if_pos rfl, noneLeft, List.append_nil]
      · have isOther : first.layer ≠ group.layer := fun same =>
          distinct.1 (List.mem_map.mpr ⟨group, inRest, same.symm⟩)
        rw [if_neg isOther, List.nil_append]
        exact ih distinct.2 inRest

/-! ## The groups of a drawing -/

/-- How groups show drawn elements by layers. -/
structure ShownBy (drawn : Layered) (groups : List LayerGroup) : Prop where
  /-- No element is lost or shown twice. -/
  whole : (groups.flatMap LayerGroup.items).Perm drawn
  /-- A layer has one group at most, and lower layers come first. -/
  rising : (groups.map LayerGroup.layer).Sublist
    [.background, .chrome, .connector, .text]
  filled : ∀ group ∈ groups, group.elements ≠ []
  /-- A group shows the elements of its layer in the order they were drawn. -/
  inOrder : ∀ group ∈ groups, group.elements = drawn.onLayer group.layer

theorem gathers_sorted (drawn : Layered) :
    (drawn.sorted.foldl Gathering.add .start).Gathers drawn.sorted :=
  Gathering.gathers_start.foldl_add drawn.sorted

theorem shownBy_gathered (drawn : Layered) : drawn.ShownBy drawn.gathered := by
  have gathers := drawn.gathers_sorted
  have rising : (drawn.gathered.map LayerGroup.layer).Pairwise fun lower upper =>
      lower.rank < upper.rank := gathers.pairwise_rank drawn.pairwise_sorted
  have items : drawn.gathered.flatMap LayerGroup.items = drawn.sorted := gathers.items
  have distinct : (drawn.gathered.map LayerGroup.layer).Nodup :=
    rising.imp fun below same => below.ne (congrArg Layer.rank same)
  refine ⟨items ▸ drawn.sorted_perm, ?rising, gathers.filled, ?inOrder⟩
  case rising =>
    have isLayer : drawn.gathered.map LayerGroup.layer ⊆ Layer.all := by
      intro layer _
      cases layer <;> decide
    have : Std.Antisymm fun lower upper : Layer => lower.rank ≤ upper.rank :=
      ⟨fun _ _ below above => Layer.rank_injective (Nat.le_antisymm below above)⟩
    exact List.sublist_of_subperm_of_pairwise (distinct.subperm isLayer)
      (rising.imp Nat.le_of_lt) (by decide)
  case inOrder =>
    intro group groupIn
    rw [← onLayer_sorted, ← items, onLayer_flatMap_items distinct groupIn]

example :
    gathered [(.text, .text "a"), (.chrome, .text "b"), (.text, .text "c")] =
      [⟨.chrome, [.text "b"]⟩, ⟨.text, [.text "a", .text "c"]⟩] := by cbv

end Layered

end Flowchart
