import Flowchart.Geometry.Polyline
import Flowchart.Proofs.Scalar.Nearness

/-!
# What is kept of any waypoints

A polyline keeps some of its waypoints, and nothing of what it keeps is
superfluous, whatever the waypoints are and however coordinates are rounded.
Built again from what was kept, it stays as it is.

Steps along the axes need not stay along the axes.  A corner is taken back where it
is in line with the point before it and with the waypoint after it, each within the
tolerance, and these two may be out of line with each other.  This is the only way
in which a slanted segment comes about, and no waypoint that follows takes it away
again.
-/

namespace Flowchart.Polyline

open Scalar

variable {α : Type} [Scalar α]

omit [Scalar α] in
theorem forall_segments_iff {points : List (Point α)}
    {holds : Segment α → Prop} :
    (∀ segment ∈ (⟨points⟩ : Polyline α).segments, holds segment) ↔
      points.IsChain fun point next => holds ⟨point, next⟩ := by
  induction points with
  | nil => simp [segments]
  | cons point rest ih =>
      cases rest with
      | nil => simp [segments]
      | cons next rest =>
          rw [List.isChain_cons_cons, ← ih]
          exact List.forall_mem_cons

/-! ## Nothing superfluous -/

/-- A chain given from its last point backwards, in which no point repeats the
one before it and every corner is a bend. -/
structure Tight (chain : List (Point α)) : Prop where
  apart : ∀ next point, [next, point] <:+: chain → point.near next = false
  bent : ∀ last middle first, [last, middle, first] <:+: chain →
    collinear first middle last = false

namespace Tight

variable {chain : List (Point α)} {point last previous : Point α}

theorem nil : Tight ([] : List (Point α)) :=
  ⟨by simp, by simp⟩

theorem single (point : Point α) : Tight [point] :=
  ⟨by simp [List.infix_cons_iff], by simp [List.infix_cons_iff]⟩

theorem tail (tight : Tight (last :: chain)) : Tight chain :=
  ⟨fun next point within => tight.apart next point (List.infix_cons within),
    fun last middle first within =>
      tight.bent last middle first (List.infix_cons within)⟩

theorem pair (far : last.near point = false) : Tight [point, last] := by
  constructor
  · intro next other within
    obtain ⟨rfl, rfl⟩ : next = point ∧ other = last := by
      simpa [List.infix_cons_iff] using within
    exact far
  · intro final middle first within
    simp [List.infix_cons_iff] at within

theorem push (tight : Tight (last :: previous :: chain))
    (far : last.near point = false)
    (bend : collinear previous last point = false) :
    Tight (point :: last :: previous :: chain) := by
  constructor
  · intro next other within
    rcases List.infix_cons_iff.mp within with atFront | inside
    · obtain ⟨rfl, rfl⟩ : next = point ∧ other = last := by
        simpa [List.cons_prefix_cons] using atFront
      exact far
    · exact tight.apart next other inside
  · intro final middle first within
    rcases List.infix_cons_iff.mp within with atFront | inside
    · obtain ⟨rfl, rfl, rfl⟩ :
          final = point ∧ middle = last ∧ first = previous := by
        simpa [List.cons_prefix_cons] using atFront
      exact bend
    · exact tight.bent final middle first inside

theorem extend (tight : Tight chain) (point : Point α) :
    Tight (extend chain point) := by
  fun_induction Polyline.extend chain point with
  | case1 point => exact .single point
  | case2 => exact tight
  | case3 last point far => exact .pair (by simpa using far)
  | case4 => exact tight
  | case5 last previous earlier point far flat ih => exact ih tight.tail
  | case6 last previous earlier point far bend =>
      exact tight.push (by simpa using far) (by simpa using bend)

/-- A waypoint that is neither a repetition nor in line is added. -/
theorem extend_eq (tight : Tight (point :: chain)) :
    Polyline.extend chain point = point :: chain := by
  match chain with
  | [] => rfl
  | [last] =>
      have far := tight.apart point last List.infix_rfl
      simp [Polyline.extend, far]
  | last :: previous :: earlier =>
      have far := tight.apart point last ⟨[], previous :: earlier, rfl⟩
      have bend := tight.bent point last previous ⟨[], earlier, rfl⟩
      simp [Polyline.extend, far, bend]

theorem foldl (tight : Tight chain) (points : List (Point α)) :
    Tight (points.foldl Polyline.extend chain) :=
  List.foldlRecOn points _ tight fun _ tightSoFar point _ =>
    tightSoFar.extend point

/-- A chain without anything superfluous is kept whole. -/
theorem foldl_reverse (tight : Tight chain) :
    chain.reverse.foldl Polyline.extend [] = chain := by
  induction chain with
  | nil => rfl
  | cons last earlier ih =>
      rw [List.reverse_cons, List.foldl_append, ih tight.tail]
      exact tight.extend_eq

end Tight

/-! ## Beginning and end -/

section

variable (chain : List (Point α)) (point : Point α)

theorem extend_sublist : (extend chain point).Sublist (point :: chain) := by
  fun_induction extend chain point with
  | case1 | case3 | case6 => exact List.Sublist.refl _
  | case2 | case4 => exact List.sublist_cons_self _ _
  | case5 last previous earlier point far flat ih =>
      exact ih.trans ((List.sublist_cons_self last _).cons_cons point)

/-- The point that a chain begins with stays. -/
theorem getLast?_extend :
    (extend chain point).getLast? = (point :: chain).getLast? := by
  fun_induction extend chain point with
  | case5 last previous earlier point far flat ih =>
      rw [ih]
      simp [List.getLast?_cons_cons]
  | _ => simp [List.getLast?_cons_cons]

/-- A chain ends with the waypoint added last, or close to it. -/
theorem head?_extend : ∃ last, (extend chain point).head? = some last ∧
    (last = point ∨ last.near point = true) := by
  fun_induction extend chain point with
  | case1 | case3 | case6 => exact ⟨_, rfl, .inl rfl⟩
  | case2 last point isNear | case4 last previous earlier point isNear =>
      exact ⟨last, rfl, .inr isNear⟩
  | case5 last previous earlier point far flat ih => exact ih

end

theorem foldl_extend_sublist (points chain : List (Point α)) :
    (points.foldl extend chain).Sublist (points.reverse ++ chain) := by
  induction points generalizing chain with
  | nil => exact List.Sublist.refl _
  | cons point rest ih =>
      rw [List.foldl_cons, List.reverse_cons, List.append_assoc]
      exact (ih _).trans ((extend_sublist chain point).append_left _)

theorem getLast?_foldl_extend (points chain : List (Point α)) :
    (points.foldl extend chain).getLast? =
      (points.reverse ++ chain).getLast? := by
  induction points generalizing chain with
  | nil => rfl
  | cons point rest ih =>
      rw [List.foldl_cons, ih, List.reverse_cons, List.append_assoc,
        List.singleton_append, List.getLast?_append, List.getLast?_append,
        getLast?_extend]

/-- All corners of a polyline are among its waypoints, in their order. -/
theorem ofPoints_sublist (points : List (Point α)) :
    (ofPoints points).points.Sublist points := by
  have kept := (foldl_extend_sublist points []).reverse
  rwa [List.append_nil, List.reverse_reverse] at kept

/-- A polyline is a simplification of some points: it keeps some of them in their
order, among them the first one, ends with or close to the last one, does not
repeat a point, and goes on in no line that it was in. -/
structure Simplifies (line : Polyline α) (points : List (Point α)) : Prop where
  sublist : line.points.Sublist points
  starts : line.start? = points.head?
  finishes : ∀ goal, points.getLast? = some goal →
    ∃ last, line.finish? = some last ∧ (last = goal ∨ last.near goal = true)
  apart : ∀ point next, [point, next] <:+: line.points →
    point.near next = false
  bent : ∀ first middle last, [first, middle, last] <:+: line.points →
    ¬ (near first.x middle.x = true ∧ near middle.x last.x = true) ∧
      ¬ (near first.y middle.y = true ∧ near middle.y last.y = true)

/-- Whatever the waypoints are, the polyline through them is a simplification of
them, and there is nothing left to simplify. -/
theorem ofPoints_simplifies (points : List (Point α)) :
    (ofPoints points).Simplifies points ∧
      ofPoints (ofPoints points).points = ofPoints points := by
  have tight : Tight (points.foldl extend []) := Tight.nil.foldl points
  refine ⟨{
    sublist := ofPoints_sublist points
    starts := ?_
    finishes := ?_
    apart := ?_
    bent := ?_ }, congrArg Polyline.mk ?_⟩
  · have first := getLast?_foldl_extend points []
    rwa [List.append_nil, List.getLast?_reverse, ← List.head?_reverse] at first
  · intro goal isGoal
    obtain ⟨before, rfl⟩ := List.getLast?_eq_some_iff.mp isGoal
    rw [finish?, ofPoints, List.getLast?_reverse, List.foldl_append]
    exact head?_extend _ goal
  · intro point next within
    exact tight.apart next point (List.reverse_infix.mp within)
  · intro first middle last within
    have bend := tight.bent last middle first (List.reverse_infix.mp within)
    simpa [collinear] using bend
  · exact congrArg List.reverse tight.foldl_reverse

/-! ## Slanted segments -/

/-- One of two points lies straight across from or straight below the other. -/
def SharesAxis (point next : Point α) : Prop :=
  (point.x == next.x) = true ∨ (point.y == next.y) = true

instance (point next : Point α) : Decidable (SharesAxis point next) :=
  inferInstanceAs (Decidable (_ ∨ _))

/-- Two points are in line along an axis, within the tolerance. -/
def InLine (point next : Point α) : Prop :=
  (Segment.mk point next).isOrthogonal = true

/-- The segments that a waypoint takes back from the end of a chain, the last one
first. -/
def takenBack : List (Point α) → Point α → List (Segment α)
  | last :: previous :: earlier, point =>
      if last.near point then []
      else if collinear previous last point then
        ⟨previous, last⟩ :: takenBack (previous :: earlier) point
      else []
  | _, _ => []

/-- All segments of a chain, given from its last point backwards, are along the
axes. -/
def Straight (chain : List (Point α)) : Prop :=
  chain.IsChain fun later earlier => InLine earlier later

section

variable {first middle last point next : Point α} {chain earlier : List (Point α)}

theorem inLine_iff : InLine point next ↔
    near point.y next.y = true ∨ near point.x next.x = true := by
  simp [InLine, Segment.isOrthogonal, Segment.isHorizontal, Segment.isVertical]

theorem inLine_of_near (isNear : point.near next = true) : InLine point next := by
  rw [Point.near, Bool.and_eq_true] at isNear
  exact inLine_iff.mpr (.inr isNear.1)

theorem inLine_of_collinear (flat : collinear first middle last = true) :
    InLine first middle ∧ InLine middle last := by
  simp only [collinear, Bool.or_eq_true, Bool.and_eq_true] at flat
  rw [inLine_iff, inLine_iff]
  exact ⟨flat.symm.imp And.left And.left, flat.symm.imp And.right And.right⟩

/-- A waypoint out of line with the last point is added, and takes nothing back. -/
theorem extend_of_slanted (slanted : ¬ InLine last point) :
    extend (last :: earlier) point = point :: last :: earlier := by
  have far : last.near point = false :=
    Bool.eq_false_iff.mpr fun isNear => slanted (inLine_of_near isNear)
  match earlier with
  | [] => simp [extend, far]
  | previous :: earlier =>
      have bend : collinear previous last point = false :=
        Bool.eq_false_iff.mpr fun flat => slanted (inLine_of_collinear flat).2
      simp [extend, far, bend]

/-- A waypoint in line with the last point keeps a chain straight just where it
is in line with every point that it falls back to. -/
theorem straight_extend_iff {chain : List (Point α)} {point : Point α}
    (inLine : ∀ last ∈ chain.head?, InLine last point) :
    Straight (extend chain point) ↔
      Straight chain ∧ ∀ taken ∈ takenBack chain point, InLine taken.start point := by
  fun_induction extend chain point with
  | case1 | case2 => simp [Straight, takenBack]
  | case3 last point far =>
      have lastInLine : InLine last point := inLine last rfl
      simp [Straight, takenBack, lastInLine]
  | case4 last previous earlier point isNear => simp [takenBack, isNear]
  | case5 last previous earlier point far flat ih =>
      have shorter : Straight (last :: previous :: earlier) ↔
          Straight (previous :: earlier) :=
        List.isChain_cons_cons.trans (and_iff_right (inLine_of_collinear flat).1)
      have taken : takenBack (last :: previous :: earlier) point =
          ⟨previous, last⟩ :: takenBack (previous :: earlier) point := by
        rw [takenBack, if_neg far, if_pos flat]
      rw [shorter, taken, List.forall_mem_cons]
      by_cases fallsInLine : InLine previous point
      · rw [ih (by simpa using fallsInLine), and_iff_right fallsInLine]
      · -- out of line, the point stays where it is
        rw [extend_of_slanted fallsInLine]
        refine iff_of_false (fun straight => fallsInLine ?_) fun both =>
          fallsInLine both.2.1
        exact (List.isChain_cons_cons.mp straight).1
  | case6 last previous earlier point far bend =>
      have lastInLine : InLine last point := inLine last rfl
      have taken : takenBack (last :: previous :: earlier) point = [] := by
        rw [takenBack, if_neg far, if_neg bend]
      rw [taken, Straight, List.isChain_cons_cons, and_iff_right lastInLine]
      exact (and_iff_left (List.forall_mem_nil _)).symm

theorem isOrthogonal_iff_straight {points : List (Point α)} :
    (ofPoints points).isOrthogonal = true ↔
      Straight (points.foldl extend []) := by
  rw [isOrthogonal, List.all_eq_true, ofPoints, forall_segments_iff,
    List.isChain_reverse]
  rfl

end

section

variable [LawfulNear α]

/-- What ends at a point, or close to it, is in line with the points along the
axes of that point. -/
theorem InLine.of_sharesAxis {last point next : Point α}
    (finite : point.isFinite = true)
    (close : last = point ∨ last.near point = true)
    (shares : SharesAxis point next) : InLine last next := by
  rw [Point.isFinite, Bool.and_eq_true] at finite
  have isNear : Scalar.near last.x point.x = true ∧
      Scalar.near last.y point.y = true := by
    rcases close with rfl | isNear
    · exact ⟨LawfulNear.near_refl finite.1, LawfulNear.near_refl finite.2⟩
    · rwa [Point.near, Bool.and_eq_true] at isNear
  rw [inLine_iff]
  rcases shares with sameX | sameY
  · exact .inr ((LawfulNear.near_congr last.x finite.1 sameX).symm.trans isNear.1)
  · exact .inl ((LawfulNear.near_congr last.y finite.2 sameY).symm.trans isNear.2)

theorem inLine_head_foldl {points : List (Point α)} {next : Point α}
    (finite : ∀ point ∈ points, point.isFinite = true)
    (along : (points ++ [next]).IsChain SharesAxis) :
    ∀ last ∈ (points.foldl extend []).head?, InLine last next := by
  rcases List.eq_nil_or_concat' points with rfl | ⟨before, point, rfl⟩
  · simp
  · intro last isLast
    obtain ⟨final, isFinal, close⟩ :=
      head?_extend (before.foldl extend []) point
    rw [List.foldl_append] at isLast
    obtain rfl : final = last := Option.some.inj (isFinal.symm.trans isLast)
    have shares : SharesAxis point next := by
      rw [List.append_assoc] at along
      exact (List.isChain_pair.mp along.right_of_append)
    exact .of_sharesAxis (finite point (by simp)) close shares

/-- The polyline through finite waypoints, each straight across from or straight
below the one before it, has all its segments along the axes just where no waypoint
takes back a segment from a start that it is out of line with. -/
theorem isOrthogonal_iff_takenBack {points : List (Point α)}
    (finite : ∀ point ∈ points, point.isFinite = true)
    (along : points.IsChain SharesAxis) :
    (ofPoints points).isOrthogonal = true ↔
      ∀ before point, before ++ [point] <+: points →
        ∀ taken ∈ takenBack (before.foldl extend []) point,
          (Segment.mk taken.start point).isOrthogonal = true := by
  rw [isOrthogonal_iff_straight]
  induction points using List.reverseRecOn with
  | nil => simp [Straight]
  | append_singleton points next ih =>
      have shorter := ih (fun point pointIn => finite point (by simp [pointIn]))
        along.left_of_append
      have inLine := inLine_head_foldl
        (fun point pointIn => finite point (by simp [pointIn])) along
      rw [List.foldl_append, List.foldl_cons, List.foldl_nil,
        straight_extend_iff inLine, shorter]
      constructor
      · rintro ⟨earlier, final⟩ before point isPrefix
        rcases List.prefix_concat_iff.mp isPrefix with whole | inside
        · obtain ⟨rfl, rfl⟩ := List.append_singleton_inj.mp whole
          exact final
        · exact earlier before point inside
      · intro all
        exact ⟨fun before point inside =>
          all before point (inside.trans (List.prefix_append _ _)),
          all points next List.prefix_rfl⟩

/-- Two steps to the right, each within the tolerance, and a long way down after
each. -/
def drift : List (Point Float32) :=
  [⟨0, 0⟩, ⟨0.0009765625, 0⟩, ⟨0.0009765625, 10⟩, ⟨0.001953125, 10⟩,
    ⟨0.001953125, 20⟩]

/-- The second step repeats the corner before it, and the way down from there takes
this corner back: what is left is one slanted segment. -/
theorem isOrthogonal_drift : ¬ ∀ points : List (Point Float32),
    (∀ point ∈ points, point.isFinite = true) → points.IsChain SharesAxis →
      (ofPoints points).isOrthogonal = true := by
  intro all
  have finite : ∀ point ∈ drift, point.isFinite = true := by decide +kernel
  have along : drift.IsChain SharesAxis := by decide +kernel
  have slanted : (ofPoints drift).isOrthogonal = false := by decide +kernel
  exact Bool.false_ne_true (slanted.symm.trans (all drift finite along))

theorem isOrthogonal_iff_takenBack_drift :
    (∀ point ∈ drift, point.isFinite = true) ∧ drift.IsChain SharesAxis ∧
      ¬ ∀ before point, before ++ [point] <+: drift →
        ∀ taken ∈ takenBack (before.foldl extend []) point,
          (Segment.mk taken.start point).isOrthogonal = true := by
  have finite : ∀ point ∈ drift, point.isFinite = true := by decide +kernel
  have along : drift.IsChain SharesAxis := by decide +kernel
  refine ⟨finite, along, fun all => ?_⟩
  have slanted : (ofPoints drift).isOrthogonal = false := by decide +kernel
  exact Bool.false_ne_true
    (slanted.symm.trans ((isOrthogonal_iff_takenBack finite along).mpr all))

end

end Flowchart.Polyline
