import Flowchart.Proofs.Geometry.Polyline
import Flowchart.Proofs.Geometry.Rect

/-!
# Polylines through orthogonal waypoints

A polyline keeps only some of its waypoints, and the tolerance lets it cut a
corner.  Every segment that is left still follows a stretch of the waypoints
within the tolerance.  So it is orthogonal, and where each leg between two
waypoints keeps to one side of a rectangle, no segment crosses the rectangle.
-/

namespace Flowchart

open Scalar

/-- A point lies on a segment, a share of the way along it. -/
def Segment.Passes (segment : Segment Rat) (point : Point Rat) : Prop :=
  ∃ share : Rat, 0 ≤ share ∧ share ≤ 1 ∧
    point.x = segment.start.x +
      share * (segment.finish.x - segment.start.x) ∧
    point.y = segment.start.y +
      share * (segment.finish.y - segment.start.y)

/-! ## Sides of a rectangle -/

/-- Every leg of a list of waypoints keeps to one side of a rectangle. -/
def Rect.Avoided (rect : Rect Rat) (waypoints : List (Point Rat)) : Prop :=
  waypoints.IsChain rect.Beside

/-- Points of which each two in a row are both low or both high in one of two
coordinates: unless some point is low or high in the first one, all are on the
same side in the second. -/
theorem one_side {low high below above : Rat} (apart : below < above)
    (across along : Point Rat → Rat) {first second : Point Rat}
    {more : List (Point Rat)}
    (sides : (first :: second :: more).IsChain fun point next =>
      (across point ≤ low ∧ across next ≤ low) ∨
        (high ≤ across point ∧ high ≤ across next) ∨
        (along point ≤ below ∧ along next ≤ below) ∨
        (above ≤ along point ∧ above ≤ along next)) :
    (∃ point ∈ first :: second :: more, across point ≤ low) ∨
      (∃ point ∈ first :: second :: more, high ≤ across point) ∨
      (∀ point ∈ first :: second :: more, along point ≤ below) ∨
      ∀ point ∈ first :: second :: more, above ≤ along point := by
  induction more generalizing first second with
  | nil =>
      rcases List.isChain_pair.mp sides with left | right | allBelow | allAbove
      · exact .inl ⟨first, List.mem_cons_self, left.1⟩
      · exact .inr (.inl ⟨first, List.mem_cons_self, right.1⟩)
      · exact .inr (.inr (.inl (by simpa using allBelow)))
      · exact .inr (.inr (.inr (by simpa using allAbove)))
  | cons third more ih =>
      obtain ⟨side, rest⟩ := List.isChain_cons_cons.mp sides
      rcases ih rest with ⟨point, pointIn, left⟩ | ⟨point, pointIn, right⟩ |
        allBelow | allAbove
      · exact .inl ⟨point, List.mem_cons_of_mem _ pointIn, left⟩
      · exact .inr (.inl ⟨point, List.mem_cons_of_mem _ pointIn, right⟩)
      · rcases side with left | right | firstUnder | firstOver
        · exact .inl ⟨first, List.mem_cons_self, left.1⟩
        · exact .inr (.inl ⟨first, List.mem_cons_self, right.1⟩)
        · exact .inr (.inr (.inl (List.forall_mem_cons.mpr ⟨firstUnder.1, allBelow⟩)))
        · have second_le := allBelow second List.mem_cons_self
          linarith [firstOver.2]
      · rcases side with left | right | firstUnder | firstOver
        · exact .inl ⟨first, List.mem_cons_self, left.1⟩
        · exact .inr (.inl ⟨first, List.mem_cons_self, right.1⟩)
        · have le_second := allAbove second List.mem_cons_self
          linarith [firstUnder.2]
        · exact .inr (.inr (.inr (List.forall_mem_cons.mpr ⟨firstOver.1, allAbove⟩)))

/-! ## Crossing -/

namespace Segment

theorem strictlyBetween_iff {low high value : Rat} :
    strictlyBetween low high value = true ↔
      low + 1 / 1000 < value ∧ value < high - 1 / 1000 := by
  simp only [strictlyBetween, Bool.and_eq_true, decide_eq_true_eq]
  rfl

theorem spans_iff {low high start finish : Rat} :
    spans low high start finish = true ↔
      (start < high - 1 / 1000 ∨ finish < high - 1 / 1000) ∧
        (low + 1 / 1000 < start ∨ low + 1 / 1000 < finish) := by
  have spans_eq : spans low high start finish =
      (let ends := if start ≤ finish then (start, finish) else (finish, start)
       decide (ends.1 < high - 1 / 1000) && decide (low + 1 / 1000 < ends.2)) := rfl
  rw [spans_eq]
  split
  case isTrue ordered =>
      simp only [Bool.and_eq_true, decide_eq_true_eq]
      constructor
      · exact fun inside => ⟨.inl inside.1, .inr inside.2⟩
      · rintro ⟨first, last⟩
        constructor
        · rcases first with first | first <;> linarith
        · rcases last with last | last <;> linarith
  case isFalse ordered =>
      simp only [Bool.and_eq_true, decide_eq_true_eq]
      constructor
      · exact fun inside => ⟨.inr inside.1, .inl inside.2⟩
      · rintro ⟨first, last⟩
        constructor
        · rcases first with first | first <;> linarith
        · rcases last with last | last <;> linarith

end Segment

/-- A kept segment follows the waypoints: some stretch of them begins and ends
where the segment does and stays within the tolerance of its line, that is of the
line through its start along the axis for which the segment is tested. -/
def Segment.Follows (segment : Segment Rat) (waypoints : List (Point Rat)) :
    Prop :=
  ∃ first second more, (first :: second :: more) <:+: waypoints ∧
    segment.start.near first = true ∧
    ((first :: second :: more).getLast (by simp)).near segment.finish = true ∧
    ((segment.isHorizontal = true ∧ ∀ point ∈ first :: second :: more,
        near segment.start.y point.y = true) ∨
      (segment.isHorizontal = false ∧ segment.isVertical = true ∧
        ∀ point ∈ first :: second :: more,
          near segment.start.x point.x = true))

namespace Segment.Follows

variable {segment : Segment Rat} {waypoints : List (Point Rat)}

theorem isOrthogonal (follows : segment.Follows waypoints) :
    segment.isOrthogonal = true := by
  obtain ⟨-, -, -, -, -, -, ⟨horizontal, -⟩ | ⟨-, vertical, -⟩⟩ := follows
  · simp [Segment.isOrthogonal, horizontal]
  · simp [Segment.isOrthogonal, vertical]

/-- A coordinate near one on the far side of a border is not well inside it. -/
theorem not_between_of_low {low high value other : Rat}
    (isNear : near value other = true) (isLow : other ≤ low) :
    strictlyBetween low high value = false := by
  rw [Bool.eq_false_iff, Ne, strictlyBetween_iff]
  have close := near_iff.mp isNear
  rintro ⟨above, -⟩
  linarith [close.1]

theorem not_between_of_high {low high value other : Rat}
    (isNear : near value other = true) (isHigh : high ≤ other) :
    strictlyBetween low high value = false := by
  rw [Bool.eq_false_iff, Ne, strictlyBetween_iff]
  have close := near_iff.mp isNear
  rintro ⟨-, below⟩
  linarith [close.2]

theorem not_spans_of_low {low high start finish first last : Rat}
    (nearStart : near start first = true) (nearFinish : near last finish = true)
    (firstLow : first ≤ low) (lastLow : last ≤ low) :
    spans low high start finish = false := by
  rw [Bool.eq_false_iff, Ne, spans_iff]
  have startClose := near_iff.mp nearStart
  have finishClose := near_iff.mp nearFinish
  rintro ⟨-, above | above⟩
  · linarith [startClose.1]
  · linarith [finishClose.2]

theorem not_spans_of_high {low high start finish first last : Rat}
    (nearStart : near start first = true) (nearFinish : near last finish = true)
    (firstHigh : high ≤ first) (lastHigh : high ≤ last) :
    spans low high start finish = false := by
  rw [Bool.eq_false_iff, Ne, spans_iff]
  have startClose := near_iff.mp nearStart
  have finishClose := near_iff.mp nearFinish
  rintro ⟨below | below, -⟩
  · linarith [startClose.2]
  · linarith [finishClose.1]

/-- The waypoints may pass a rectangle on several sides, but those within the
tolerance of one line do not get around a corner of it. -/
theorem not_crosses (follows : segment.Follows waypoints) {rect : Rect Rat}
    (wide : rect.minX < rect.maxX) (high : rect.minY < rect.maxY)
    (avoided : rect.Avoided waypoints) : segment.crosses rect = false := by
  obtain ⟨first, second, more, within, nearFirst, nearLast, band⟩ := follows
  have sides := avoided.infix within
  have firstIn : first ∈ first :: second :: more := List.mem_cons_self
  have lastIn := List.getLast_mem (l := first :: second :: more) (by simp)
  simp only [Point.near, Bool.and_eq_true] at nearFirst nearLast
  rcases band with ⟨horizontal, band⟩ | ⟨notHorizontal, vertical, band⟩
  · rw [Segment.crosses, if_pos horizontal, Bool.and_eq_false_iff]
    rcases one_side wide Point.y Point.x
        (sides.imp fun point next beside => by
          rcases beside with left | right | up | down
          · exact .inr (.inr (.inl left))
          · exact .inr (.inr (.inr right))
          · exact .inl up
          · exact .inr (.inl down)) with
      ⟨point, pointIn, isLow⟩ | ⟨point, pointIn, isHigh⟩ | allLow | allHigh
    · exact .inl (not_between_of_low (band point pointIn) isLow)
    · exact .inl (not_between_of_high (band point pointIn) isHigh)
    · exact .inr (not_spans_of_low nearFirst.1 nearLast.1 (allLow _ firstIn)
        (allLow _ lastIn))
    · exact .inr (not_spans_of_high nearFirst.1 nearLast.1 (allHigh _ firstIn)
        (allHigh _ lastIn))
  · rw [Segment.crosses, if_neg (by simp [notHorizontal]), if_pos vertical,
      Bool.and_eq_false_iff]
    rcases one_side high Point.x Point.y sides with
      ⟨point, pointIn, isLow⟩ | ⟨point, pointIn, isHigh⟩ | allLow | allHigh
    · exact .inl (not_between_of_low (band point pointIn) isLow)
    · exact .inl (not_between_of_high (band point pointIn) isHigh)
    · exact .inr (not_spans_of_low nearFirst.2 nearLast.2 (allLow _ firstIn)
        (allLow _ lastIn))
    · exact .inr (not_spans_of_high nearFirst.2 nearLast.2 (allHigh _ firstIn)
        (allHigh _ lastIn))

theorem mono {more : List (Point Rat)} (follows : segment.Follows waypoints)
    (within : waypoints <:+: more) : segment.Follows more := by
  obtain ⟨first, second, rest, inside, follows⟩ := follows
  exact ⟨first, second, rest, inside.trans within, follows⟩

theorem horizontal (x y right : Rat) :
    Segment.Follows ⟨⟨x, y⟩, ⟨right, y⟩⟩ [⟨x, y⟩, ⟨right, y⟩] :=
  ⟨_, _, [], List.infix_rfl, by simp [Point.near], by simp [Point.near],
    .inl ⟨by simp [isHorizontal], by simp⟩⟩

theorem vertical (x : Rat) {y down : Rat} (far : near y down = false) :
    Segment.Follows ⟨⟨x, y⟩, ⟨x, down⟩⟩ [⟨x, y⟩, ⟨x, down⟩] :=
  ⟨_, _, [], List.infix_rfl, by simp [Point.near], by simp [Point.near],
    .inr ⟨by simp [isHorizontal, far], by simp [isVertical], by simp⟩⟩

end Segment.Follows

/-! ## What is kept of the waypoints -/

/-- A polyline starts at the first waypoint, ends near the last one, and follows
them in between. -/
structure Polyline.Keeps (line : Polyline Rat) (waypoints : List (Point Rat)) :
    Prop where
  starts : line.start? = waypoints.head?
  finishes : ∃ last goal, line.finish? = some last ∧
    waypoints.getLast? = some goal ∧ last.near goal = true
  follows : ∀ segment ∈ line.segments, segment.Follows waypoints

namespace Polyline

section

variable {x y lane turn column level goal : Rat}

/-- Waypoints that go sideways into a lane, down to a turn, sideways to a column
and along it to a level. -/
abbrev stairs (x y lane turn column level : Rat) : List (Point Rat) :=
  [⟨x, y⟩, ⟨lane, y⟩, ⟨lane, turn⟩, ⟨column, turn⟩, ⟨column, level⟩]

/-- The points of a staircase that are kept, from the last one back. -/
inductive Kept (x y lane turn column level : Rat) : List (Point Rat) → Prop
  | start (narrow : near x column = true) (flat : near y level = true) :
      Kept x y lane turn column level [⟨x, y⟩]
  | down (narrow : near x column = true) (steep : near y level = false)
      (straight : near y turn = true ∨
        near x lane = true ∧ near lane column = true) :
      Kept x y lane turn column level [⟨column, level⟩, ⟨x, y⟩]
  | across (wide : near x column = false) (flat : near y turn = true)
      (level_ : near turn level = true) :
      Kept x y lane turn column level [⟨column, turn⟩, ⟨x, y⟩]
  | acrossAndDown (wide : near x column = false) (flat : near y turn = true)
      (steep : near turn level = false) :
      Kept x y lane turn column level
        [⟨column, level⟩, ⟨column, turn⟩, ⟨x, y⟩]
  | downShort (narrow : near x lane = true) (steep : near y turn = false)
      (narrowNext : near lane column = true) (flat : near turn level = true) :
      Kept x y lane turn column level [⟨lane, turn⟩, ⟨x, y⟩]
  | downAndAcross (narrow : near x lane = true) (steep : near y turn = false)
      (wide : near lane column = false) (flat : near turn level = true) :
      Kept x y lane turn column level
        [⟨column, turn⟩, ⟨lane, turn⟩, ⟨x, y⟩]
  | downAcrossDown (narrow : near x lane = true) (steep : near y turn = false)
      (wide : near lane column = false) (steepNext : near turn level = false) :
      Kept x y lane turn column level
        [⟨column, level⟩, ⟨column, turn⟩, ⟨lane, turn⟩, ⟨x, y⟩]
  | around (wide : near x lane = false) (steep : near y turn = false)
      (wideNext : near lane column = false) (flat : near turn level = true) :
      Kept x y lane turn column level
        [⟨column, turn⟩, ⟨lane, turn⟩, ⟨lane, y⟩, ⟨x, y⟩]
  | all (wide : near x lane = false) (steep : near y turn = false)
      (wideNext : near lane column = false)
      (steepNext : near turn level = false) :
      Kept x y lane turn column level
        [⟨column, level⟩, ⟨column, turn⟩, ⟨lane, turn⟩, ⟨lane, y⟩, ⟨x, y⟩]

/-- The start lies between the lane and the column, so that no detour to the lane
is cut off on the way back to the column. -/
theorem near_of_back (back : column ≤ x ∧ x ≤ lane ∨ lane ≤ x ∧ x ≤ column) :
    (near lane column = true → near x lane = true) ∧
      (near x lane = true → near lane column = true →
        near x column = true) := by
  simp only [near_iff]
  rcases back with ⟨columnLeft, laneRight⟩ | ⟨laneLeft, columnRight⟩
  · exact ⟨fun close => ⟨by linarith [close.1], by linarith [close.1]⟩,
      fun close next => ⟨by linarith [next.1], by linarith⟩⟩
  · exact ⟨fun close => ⟨by linarith [close.2], by linarith [close.2]⟩,
      fun close next => ⟨by linarith, by linarith [next.2]⟩⟩

/-- Where the turn is level with the start, the lane leaves no trace. -/
theorem extend_flat (back : column ≤ x ∧ x ≤ lane ∨ lane ≤ x ∧ x ≤ column)
    (flat : near y turn = true) :
    [⟨x, y⟩, ⟨lane, y⟩, ⟨lane, turn⟩, ⟨column, turn⟩].foldl extend [] =
      if near x column then [⟨x, y⟩] else [⟨column, turn⟩, ⟨x, y⟩] := by
  obtain ⟨nearLane, -⟩ := near_of_back back
  cases narrow : near x lane with
  | true => simp [extend, Point.near, flat, narrow]
  | false =>
      have wide : near lane column = false := by
        by_contra isNear
        simp [nearLane (by simpa using isNear)] at narrow
      simp [extend, Point.near, collinear, flat, narrow, wide]

theorem kept (y turn level : Rat)
    (back : column ≤ x ∧ x ≤ lane ∨ lane ≤ x ∧ x ≤ column) :
    Kept x y lane turn column level
      ((stairs x y lane turn column level).foldl extend []) := by
  obtain ⟨nearLane, nearColumn⟩ := near_of_back back
  cases flat : near y turn with
  | true =>
      have last : (stairs x y lane turn column level).foldl extend [] =
            extend (if near x column then [⟨x, y⟩]
              else [⟨column, turn⟩, ⟨x, y⟩]) ⟨column, level⟩ := by
        rw [← extend_flat back flat]
        rfl
      rw [last]
      cases narrow : near x column with
      | true =>
          cases isLevel : near y level with
          | true => simpa [extend, Point.near, narrow, isLevel] using
              Kept.start narrow isLevel
          | false => simpa [extend, Point.near, narrow, isLevel] using
              Kept.down narrow isLevel (.inl flat)
      | false =>
          cases isLevel : near turn level with
          | true => simpa [extend, Point.near, isLevel] using
              Kept.across narrow flat isLevel
          | false => simpa [extend, Point.near, collinear, narrow, isLevel] using
              Kept.acrossAndDown narrow flat isLevel
  | false =>
      cases narrow : near x lane with
      | true =>
          cases isLevel : near turn level with
          | true =>
              cases next : near lane column with
              | true => simpa [extend, Point.near, flat, narrow, isLevel, next]
                  using Kept.downShort narrow flat next isLevel
              | false => simpa [extend, Point.near, collinear, flat, narrow,
                  isLevel, next] using
                  Kept.downAndAcross narrow flat next isLevel
          | false =>
              cases next : near lane column with
              | true =>
                  have isColumn := nearColumn narrow next
                  cases short : near y level with
                  | true => simpa [extend, Point.near, collinear, flat, narrow,
                      isLevel, next, isColumn, short] using
                      Kept.start isColumn short
                  | false => simpa [extend, Point.near, collinear, flat, narrow,
                      isLevel, next, isColumn, short] using
                      Kept.down isColumn short (.inr ⟨narrow, next⟩)
              | false => simpa [extend, Point.near, collinear, flat, narrow,
                  isLevel, next] using
                  Kept.downAcrossDown narrow flat next isLevel
      | false =>
          have wide : near lane column = false := by
            by_contra isNear
            simp [nearLane (by simpa using isNear)] at narrow
          cases isLevel : near turn level with
          | true => simpa [extend, Point.near, collinear, flat, narrow, wide,
              isLevel] using Kept.around narrow flat wide isLevel
          | false => simpa [extend, Point.near, collinear, flat, narrow, wide,
              isLevel] using Kept.all narrow flat wide isLevel

end

/-! ## Every shape of a path -/

theorem keeps_of_chain {waypoints : List (Point Rat)}
    (chain : List (Point Rat))
    (isChain : waypoints.foldl extend [] = chain)
    (starts : chain.getLast? = waypoints.head?)
    (finishes : ∃ last goal, chain.head? = some last ∧
      waypoints.getLast? = some goal ∧ last.near goal = true)
    (follows : chain.IsChain fun next point =>
      Segment.Follows ⟨point, next⟩ waypoints) :
    (ofPoints waypoints).Keeps waypoints := by
  rw [ofPoints, isChain]
  exact {
    starts := by rwa [start?, List.head?_reverse]
    finishes := by simpa only [finish?, List.getLast?_reverse] using finishes
    follows := forall_segments_iff.mpr (List.isChain_reverse.mpr follows) }

section

variable {x y lane turn column level goal : Rat}

open Segment

theorem follows_lane (narrow : near x lane = true)
    (steep : near y turn = false) :
    Follows ⟨⟨x, y⟩, ⟨lane, turn⟩⟩ [⟨x, y⟩, ⟨lane, y⟩, ⟨lane, turn⟩] :=
  ⟨_, _, [_], List.infix_rfl, by simp [Point.near], by simp [Point.near],
    .inr ⟨steep, narrow, by simp [narrow]⟩⟩

theorem follows_turn (flat : near y turn = true) :
    Follows ⟨⟨x, y⟩, ⟨column, turn⟩⟩
      [⟨x, y⟩, ⟨lane, y⟩, ⟨lane, turn⟩, ⟨column, turn⟩] :=
  ⟨_, _, [_, _], List.infix_rfl, by simp [Point.near], by simp [Point.near],
    .inl ⟨flat, by simp [flat]⟩⟩

/-- Sideways into a lane and down. -/
theorem keeps_three : (ofPoints [⟨x, y⟩, ⟨lane, y⟩, ⟨lane, turn⟩]).Keeps
    [⟨x, y⟩, ⟨lane, y⟩, ⟨lane, turn⟩] := by
  cases narrow : near x lane with
  | true =>
      cases flat : near y turn with
      | true =>
          refine keeps_of_chain [⟨x, y⟩]
            (by simp [extend, Point.near, narrow, flat]) rfl
            ⟨_, _, rfl, rfl, by simp [Point.near, narrow, flat]⟩ (by simp)
      | false =>
          refine keeps_of_chain [⟨lane, turn⟩, ⟨x, y⟩]
            (by simp [extend, Point.near, narrow, flat]) rfl
            ⟨_, _, rfl, rfl, by simp [Point.near]⟩ ?_
          simpa using follows_lane narrow flat
  | false =>
      cases flat : near y turn with
      | true =>
          refine keeps_of_chain [⟨lane, y⟩, ⟨x, y⟩]
            (by simp [extend, Point.near, narrow, flat]) rfl
            ⟨_, _, rfl, rfl, by simp [Point.near, flat]⟩ ?_
          simpa using (Follows.horizontal x y lane).mono ⟨[], [_], rfl⟩
      | false =>
          refine keeps_of_chain [⟨lane, turn⟩, ⟨lane, y⟩, ⟨x, y⟩]
            (by simp [extend, Point.near, collinear, narrow, flat]) rfl
            ⟨_, _, rfl, rfl, by simp [Point.near]⟩ ?_
          simp only [List.isChain_cons_cons, List.isChain_singleton, and_true]
          exact ⟨(Follows.vertical lane flat).mono ⟨[_], [], rfl⟩,
            (Follows.horizontal x y lane).mono ⟨[], [_], rfl⟩⟩

/-- Sideways into a lane, down, and sideways again. -/
theorem keeps_four :
    (ofPoints [⟨x, y⟩, ⟨lane, y⟩, ⟨lane, turn⟩, ⟨column, turn⟩]).Keeps
      [⟨x, y⟩, ⟨lane, y⟩, ⟨lane, turn⟩, ⟨column, turn⟩] := by
  cases flat : near y turn with
  | true =>
      cases narrow : near x lane with
      | true =>
          cases isColumn : near x column with
          | true =>
              exact keeps_of_chain [⟨x, y⟩]
                (by simp [extend, Point.near, narrow, flat, isColumn]) rfl
                ⟨_, _, rfl, rfl, by simp [Point.near, isColumn, flat]⟩ (by simp)
          | false =>
              refine keeps_of_chain [⟨column, turn⟩, ⟨x, y⟩]
                (by simp [extend, Point.near, narrow, flat, isColumn]) rfl
                ⟨_, _, rfl, rfl, by simp [Point.near]⟩ ?_
              simpa using follows_turn flat
      | false =>
          cases next : near lane column with
          | true =>
              refine keeps_of_chain [⟨lane, y⟩, ⟨x, y⟩]
                (by simp [extend, Point.near, narrow, flat, next]) rfl
                ⟨_, _, rfl, rfl, by simp [Point.near, next, flat]⟩ ?_
              simpa using (Follows.horizontal x y lane).mono ⟨[], [_, _], rfl⟩
          | false =>
              cases isColumn : near x column with
              | true =>
                  exact keeps_of_chain [⟨x, y⟩]
                    (by simp [extend, Point.near, collinear, narrow, flat, next,
                      isColumn]) rfl
                    ⟨_, _, rfl, rfl, by simp [Point.near, isColumn, flat]⟩
                    (by simp)
              | false =>
                  refine keeps_of_chain [⟨column, turn⟩, ⟨x, y⟩]
                    (by simp [extend, Point.near, collinear, narrow, flat, next,
                      isColumn]) rfl
                    ⟨_, _, rfl, rfl, by simp [Point.near]⟩ ?_
                  simpa using follows_turn flat
  | false =>
      have down : Follows ⟨⟨lane, y⟩, ⟨lane, turn⟩⟩
          [⟨x, y⟩, ⟨lane, y⟩, ⟨lane, turn⟩, ⟨column, turn⟩] :=
        (Follows.vertical lane flat).mono ⟨[_], [_], rfl⟩
      have across : Follows ⟨⟨lane, turn⟩, ⟨column, turn⟩⟩
          [⟨x, y⟩, ⟨lane, y⟩, ⟨lane, turn⟩, ⟨column, turn⟩] :=
        (Follows.horizontal lane turn column).mono ⟨[_, _], [], rfl⟩
      cases narrow : near x lane with
      | true =>
          have direct := (follows_lane narrow flat).mono
            ⟨[], [⟨column, turn⟩], rfl⟩
          cases next : near lane column with
          | true =>
              refine keeps_of_chain [⟨lane, turn⟩, ⟨x, y⟩]
                (by simp [extend, Point.near, narrow, flat, next]) rfl
                ⟨_, _, rfl, rfl, by simp [Point.near, next]⟩ ?_
              simpa using direct
          | false =>
              refine keeps_of_chain [⟨column, turn⟩, ⟨lane, turn⟩, ⟨x, y⟩]
                (by simp [extend, Point.near, collinear, narrow, flat, next]) rfl
                ⟨_, _, rfl, rfl, by simp [Point.near]⟩ ?_
              simpa using ⟨across, direct⟩
      | false =>
          have aside : Follows ⟨⟨x, y⟩, ⟨lane, y⟩⟩
              [⟨x, y⟩, ⟨lane, y⟩, ⟨lane, turn⟩, ⟨column, turn⟩] :=
            (Follows.horizontal x y lane).mono ⟨[], [_, _], rfl⟩
          cases next : near lane column with
          | true =>
              refine keeps_of_chain [⟨lane, turn⟩, ⟨lane, y⟩, ⟨x, y⟩]
                (by simp [extend, Point.near, collinear, narrow, flat, next]) rfl
                ⟨_, _, rfl, rfl, by simp [Point.near, next]⟩ ?_
              simpa using ⟨down, aside⟩
          | false =>
              refine keeps_of_chain
                [⟨column, turn⟩, ⟨lane, turn⟩, ⟨lane, y⟩, ⟨x, y⟩]
                (by simp [extend, Point.near, collinear, narrow, flat, next]) rfl
                ⟨_, _, rfl, rfl, by simp [Point.near]⟩ ?_
              simpa using ⟨across, down, aside⟩

/-- The last leg alone where the first three come back to the start, and all legs
where they hardly leave its column. -/
theorem follows_column (narrow : near x column = true)
    (steep : near y level = false)
    (straight : near y turn = true ∨
      near x lane = true ∧ near lane column = true) :
    Follows ⟨⟨x, y⟩, ⟨column, level⟩⟩
      (stairs x y lane turn column level) := by
  rcases straight with flat | ⟨isLane, -⟩
  · exact ⟨⟨column, turn⟩, ⟨column, level⟩, [], ⟨[_, _, _], [], rfl⟩,
      by simp [Point.near, narrow, flat], by simp [Point.near],
      .inr ⟨steep, narrow, by simp [narrow]⟩⟩
  · exact ⟨_, _, [_, _, _], List.infix_rfl, by simp [Point.near],
      by simp [Point.near], .inr ⟨steep, narrow, by simp [narrow, isLane]⟩⟩

namespace Kept

variable {chain : List (Point Rat)}

theorem starts (isKept : Kept x y lane turn column level chain) :
    chain.getLast? = some ⟨x, y⟩ := by
  cases isKept <;> rfl

theorem finishes (isKept : Kept x y lane turn column level chain) :
    ∃ last, chain.head? = some last ∧ last.near ⟨column, level⟩ = true := by
  cases isKept <;> exact ⟨_, rfl, by simp [Point.near, *]⟩

theorem follows (isKept : Kept x y lane turn column level chain) :
    chain.IsChain fun next point =>
      Follows ⟨point, next⟩ (stairs x y lane turn column level) := by
  have aside : Follows ⟨⟨x, y⟩, ⟨lane, y⟩⟩
      (stairs x y lane turn column level) :=
    (Follows.horizontal x y lane).mono ⟨[], [_, _, _], rfl⟩
  have down (steep : near y turn = false) : Follows ⟨⟨lane, y⟩, ⟨lane, turn⟩⟩
      (stairs x y lane turn column level) :=
    (Follows.vertical lane steep).mono ⟨[_], [_, _], rfl⟩
  have across : Follows ⟨⟨lane, turn⟩, ⟨column, turn⟩⟩
      (stairs x y lane turn column level) :=
    (Follows.horizontal lane turn column).mono ⟨[_, _], [_], rfl⟩
  have along (steep : near turn level = false) :
      Follows ⟨⟨column, turn⟩, ⟨column, level⟩⟩
        (stairs x y lane turn column level) :=
    (Follows.vertical column steep).mono ⟨[_, _, _], [], rfl⟩
  have direct (narrow : near x lane = true) (steep : near y turn = false) :
      Follows ⟨⟨x, y⟩, ⟨lane, turn⟩⟩ (stairs x y lane turn column level) :=
    (follows_lane narrow steep).mono ⟨[], [_, _], rfl⟩
  have level_ (flat : near y turn = true) :
      Follows ⟨⟨x, y⟩, ⟨column, turn⟩⟩ (stairs x y lane turn column level) :=
    (follows_turn flat).mono ⟨[], [_], rfl⟩
  cases isKept with
  | start narrow flat => simp
  | down narrow steep straight =>
      simpa using follows_column narrow steep straight
  | across wide flat isLevel => simpa using level_ flat
  | acrossAndDown wide flat steep => simpa using ⟨along steep, level_ flat⟩
  | downShort narrow steep next flat => simpa using direct narrow steep
  | downAndAcross narrow steep wide flat =>
      simpa using ⟨across, direct narrow steep⟩
  | downAcrossDown narrow steep wide next =>
      simpa using ⟨along next, across, direct narrow steep⟩
  | around wide steep next flat => simpa using ⟨across, down steep, aside⟩
  | all wide steep next isLevel =>
      simpa using ⟨along isLevel, across, down steep, aside⟩

end Kept

/-- Sideways into a lane, down to a turn, sideways to a column and along it. -/
theorem keeps_five (back : column ≤ x ∧ x ≤ lane ∨ lane ≤ x ∧ x ≤ column) :
    (ofPoints (stairs x y lane turn column level)).Keeps
      (stairs x y lane turn column level) := by
  have isKept := kept y turn level back
  obtain ⟨last, isLast, close⟩ := isKept.finishes
  exact keeps_of_chain _ rfl isKept.starts ⟨last, _, isLast, rfl, close⟩
    isKept.follows

/-- What one more step sideways, at the level reached, does to a staircase that
goes down to the turn and up again, past the height of the start. -/
theorem Kept.extend_goal {chain : List (Point Rat)}
    (isKept : Kept x y lane turn column level chain) (isDown : y ≤ turn)
    (isUp : level ≤ y) (goal : Rat) :
    (extend chain ⟨goal, level⟩ = chain ∧ ∃ last, chain.head? = some last ∧
        last.near ⟨goal, level⟩ = true) ∨
      (extend chain ⟨goal, level⟩ = ⟨goal, level⟩ :: chain ∧
        chain.head? = some ⟨column, level⟩) ∨
      (extend chain ⟨goal, level⟩ = [⟨x, y⟩] ∧ near x goal = true ∧
        near y level = true) ∨
      (extend chain ⟨goal, level⟩ = [⟨goal, level⟩, ⟨x, y⟩] ∧
        near y level = true ∧ (near x column = true ∨ near y turn = true)) := by
  have flat_of_flat (flat : near turn level = true) :
      near y turn = true ∧ near y level = true := by
    rw [near_iff] at flat ⊢
    exact ⟨⟨by linarith, by linarith [flat.1]⟩,
      near_iff.mpr ⟨by linarith [flat.1], by linarith⟩⟩
  cases isKept with
  | start narrow flat =>
      cases isGoal : near x goal with
      | true =>
          exact .inl ⟨by simp [extend, Point.near, isGoal, flat], _, rfl,
            by simp [Point.near, isGoal, flat]⟩
      | false =>
          exact .inr (.inr (.inr ⟨by simp [extend, Point.near, isGoal], flat,
            .inl narrow⟩))
  | across wide flat isLevel =>
      have isShort := (flat_of_flat isLevel).2
      cases isGoal : near column goal with
      | true =>
          exact .inl ⟨by simp [extend, Point.near, isGoal, isLevel], _, rfl,
            by simp [Point.near, isGoal, isLevel]⟩
      | false =>
          cases near_goal : near x goal with
          | true =>
              exact .inr (.inr (.inl ⟨by simp [extend, Point.near, collinear,
                isGoal, flat, isLevel, near_goal, isShort], rfl, isShort⟩))
          | false =>
              exact .inr (.inr (.inr ⟨by simp [extend, Point.near, collinear,
                isGoal, flat, isLevel, near_goal], isShort, .inr flat⟩))
  | downShort narrow steep next flat =>
      simp [(flat_of_flat flat).1] at steep
  | downAndAcross narrow steep wide flat =>
      simp [(flat_of_flat flat).1] at steep
  | around wide steep next flat => simp [(flat_of_flat flat).1] at steep
  | down | acrossAndDown | downAcrossDown | all =>
      cases isGoal : near column goal with
      | true =>
          exact .inl ⟨by simp [extend, Point.near, isGoal], _, rfl,
            by simp [Point.near, isGoal]⟩
      | false =>
          exact .inr (.inl ⟨by simp [extend, Point.near, collinear, *], rfl⟩)

/-- Sideways into a lane, down to a turn, sideways to a column, up along it, past
the height of the start, and sideways once more. -/
theorem keeps_six (back : column ≤ x ∧ x ≤ lane ∨ lane ≤ x ∧ x ≤ column)
    (isDown : y ≤ turn) (isUp : level ≤ y) (goal : Rat) :
    (ofPoints (stairs x y lane turn column level ++ [⟨goal, level⟩])).Keeps
      (stairs x y lane turn column level ++ [⟨goal, level⟩]) := by
  have within : stairs x y lane turn column level <:+:
      stairs x y lane turn column level ++ [⟨goal, level⟩] := ⟨[], [_], rfl⟩
  obtain ⟨chain, isChain⟩ : ∃ chain,
      (stairs x y lane turn column level).foldl extend [] = chain := ⟨_, rfl⟩
  have isKept := kept y turn level back
  rw [isChain] at isKept
  have last_step : (stairs x y lane turn column level ++
      [(⟨goal, level⟩ : Point Rat)]).foldl extend [] =
        extend chain ⟨goal, level⟩ := by
    rw [List.foldl_append, isChain]
    rfl
  rcases isKept.extend_goal isDown isUp goal with ⟨same, last, isLast, close⟩ |
    ⟨added, isLast⟩ | ⟨only, nearGoal, flat⟩ | ⟨both, flat, straight⟩
  · exact keeps_of_chain _ (last_step.trans same) isKept.starts
      ⟨last, _, isLast, rfl, close⟩
      (isKept.follows.imp fun _ _ follows => follows.mono within)
  · obtain ⟨rest, rfl⟩ := List.head?_eq_some_iff.mp isLast
    have last_leg : Follows ⟨⟨column, level⟩, ⟨goal, level⟩⟩
        (stairs x y lane turn column level ++ [⟨goal, level⟩]) :=
      (Follows.horizontal column level goal).mono ⟨[_, _, _, _], [], rfl⟩
    refine keeps_of_chain _ (last_step.trans added) ?_
      ⟨_, _, rfl, rfl, by simp [Point.near]⟩ (List.isChain_cons_cons.mpr
        ⟨last_leg, isKept.follows.imp fun _ _ follows => follows.mono within⟩)
    simpa using isKept.starts
  · exact keeps_of_chain _ (last_step.trans only) rfl
      ⟨_, _, rfl, rfl, by simp [Point.near, nearGoal, flat]⟩ (by simp)
  · refine keeps_of_chain _ (last_step.trans both) rfl
      ⟨_, _, rfl, rfl, by simp [Point.near]⟩ (List.isChain_pair.mpr ?_)
    rcases straight with narrow | isTurn
    · exact ⟨⟨column, level⟩, ⟨goal, level⟩, [], ⟨[_, _, _, _], [], rfl⟩,
        by simp [Point.near, narrow, flat], by simp [Point.near],
        .inl ⟨flat, by simp [flat]⟩⟩
    · exact ⟨_, _, [_, _, _, _], List.infix_rfl, by simp [Point.near],
        by simp [Point.near], .inl ⟨flat, by simp [flat, isTurn]⟩⟩

end

end Polyline

end Flowchart
