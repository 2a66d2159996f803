import Flowchart.Geometry.Rect
import Flowchart.Proofs.Scalar.Exact

/-!
# Rectangles in exact arithmetic

Rectangles inside one another, and rectangles that share no more than a border.
-/

namespace Flowchart

open Scalar

@[simp]
theorem Point.add_x (first second : Point Rat) :
    (first + second).x = first.x + second.x := rfl

@[simp]
theorem Point.add_y (first second : Point Rat) :
    (first + second).y = first.y + second.y := rfl

@[simp]
theorem Point.origin_x : (Point.origin : Point Rat).x = 0 := rfl

@[simp]
theorem Point.origin_y : (Point.origin : Point Rat).y = 0 := rfl

namespace Rect

variable {inner middle outer first second : Rect Rat}

def Inside (inner outer : Rect Rat) : Prop :=
  outer.minX ≤ inner.minX ∧ inner.maxX ≤ outer.maxX ∧
    outer.minY ≤ inner.minY ∧ inner.maxY ≤ outer.maxY

/-- Two rectangles share no more than a border. -/
def Apart (first second : Rect Rat) : Prop :=
  first.maxX ≤ second.minX ∨ second.maxX ≤ first.minX ∨
    first.maxY ≤ second.minY ∨ second.maxY ≤ first.minY

/-- A point lies in a rectangle or on its border. -/
def Holds (rect : Rect Rat) (point : Point Rat) : Prop :=
  rect.minX ≤ point.x ∧ point.x ≤ rect.maxX ∧
    rect.minY ≤ point.y ∧ point.y ≤ rect.maxY

/-- Two points lie on one side of a rectangle, which may be its border. -/
def Beside (rect : Rect Rat) (first second : Point Rat) : Prop :=
  (first.x ≤ rect.minX ∧ second.x ≤ rect.minX) ∨
    (rect.maxX ≤ first.x ∧ rect.maxX ≤ second.x) ∨
    (first.y ≤ rect.minY ∧ second.y ≤ rect.minY) ∨
    (rect.maxY ≤ first.y ∧ rect.maxY ≤ second.y)

theorem contains_iff_holds {rect : Rect Rat} {point : Point Rat} :
    rect.contains point = true ↔ rect.Holds point := by
  simp [contains, Holds, and_assoc]

theorem Inside.refl (rect : Rect Rat) : rect.Inside rect :=
  ⟨le_refl _, le_refl _, le_refl _, le_refl _⟩

theorem Inside.trans (within : inner.Inside middle)
    (further : middle.Inside outer) : inner.Inside outer :=
  ⟨further.1.trans within.1, within.2.1.trans further.2.1,
    further.2.2.1.trans within.2.2.1, within.2.2.2.trans further.2.2.2⟩

theorem Inside.holds (within : inner.Inside outer) {point : Point Rat}
    (holds : inner.Holds point) : outer.Holds point :=
  ⟨within.1.trans holds.1, holds.2.1.trans within.2.1,
    within.2.2.1.trans holds.2.2.1, holds.2.2.2.trans within.2.2.2⟩

theorem Inside.translate (within : inner.Inside outer) (offset : Point Rat) :
    (inner.translate offset).Inside (outer.translate offset) := by
  obtain ⟨left, right, top, bottom⟩ := within
  refine ⟨?_, ?_, ?_, ?_⟩ <;> simp only [Rect.translate] <;> linarith

theorem Apart.symm (apart : first.Apart second) : second.Apart first := by
  unfold Apart at apart ⊢
  tauto

theorem Apart.mono (apart : outer.Apart second) (within : inner.Inside outer) :
    inner.Apart second := by
  obtain ⟨left, right, top, bottom⟩ := within
  rcases apart with before | after | above | below
  · exact .inl (right.trans before)
  · exact .inr (.inl (after.trans left))
  · exact .inr (.inr (.inl (bottom.trans above)))
  · exact .inr (.inr (.inr (below.trans top)))

theorem Apart.translate (apart : first.Apart second) (offset : Point Rat) :
    (first.translate offset).Apart (second.translate offset) := by
  unfold Apart at apart ⊢
  simp only [Rect.translate]
  rcases apart with before | after | above | below
  · exact .inl (by linarith)
  · exact .inr (.inl (by linarith))
  · exact .inr (.inr (.inl (by linarith)))
  · exact .inr (.inr (.inr (by linarith)))

theorem Apart.overlaps_eq (apart : first.Apart second) :
    first.overlaps second = false := by
  have overlaps_iff : first.overlaps second = true ↔
      first.minX < second.maxX - 1 / 1000 ∧
        second.minX < first.maxX - 1 / 1000 ∧
        first.minY < second.maxY - 1 / 1000 ∧
        second.minY < first.maxY - 1 / 1000 := by
    simp only [overlaps, Bool.and_eq_true, decide_eq_true_eq, and_assoc]
    rfl
  rw [Bool.eq_false_iff, Ne, overlaps_iff]
  rintro ⟨left, right, top, bottom⟩
  rcases apart with before | after | above | below <;> linarith

/-- Points in a rectangle that is apart from this one lie on one side of it. -/
theorem Apart.beside (apart : first.Apart second) {start finish : Point Rat}
    (startIn : second.Holds start) (finishIn : second.Holds finish) :
    first.Beside start finish := by
  rcases apart with before | after | above | below
  · exact .inr (.inl ⟨before.trans startIn.1, before.trans finishIn.1⟩)
  · exact .inl ⟨startIn.2.1.trans after, finishIn.2.1.trans after⟩
  · exact .inr (.inr (.inr
      ⟨above.trans startIn.2.2.1, above.trans finishIn.2.2.1⟩))
  · exact .inr (.inr (.inl
      ⟨startIn.2.2.2.trans below, finishIn.2.2.2.trans below⟩))

theorem ofTopLeft_add (offset corner : Point Rat) (size : Size Rat) :
    ofTopLeft (offset + corner) size =
      (ofTopLeft corner size).translate offset := by
  simp only [ofTopLeft, Rect.translate, Point.add_x, Point.add_y,
    Rect.mk.injEq]
  refine ⟨?_, ?_, ?_, ?_⟩ <;> linarith

/-! ## Lines through a rectangle -/

variable {rect : Rect Rat}

/-- The vertical line at `x` goes through a rectangle. -/
def Across (rect : Rect Rat) (x : Rat) : Prop :=
  rect.minX ≤ x ∧ x ≤ rect.maxX

/-- The horizontal line at `y` goes through a rectangle. -/
def Along (rect : Rect Rat) (y : Rat) : Prop :=
  rect.minY ≤ y ∧ y ≤ rect.maxY

theorem Holds.across {point : Point Rat} (holds : rect.Holds point) :
    rect.Across point.x :=
  ⟨holds.1, holds.2.1⟩

theorem Holds.along {point : Point Rat} (holds : rect.Holds point) :
    rect.Along point.y :=
  holds.2.2

theorem Across.holds {x y : Rat} (across : rect.Across x)
    (along : rect.Along y) : rect.Holds ⟨x, y⟩ :=
  ⟨across.1, across.2, along⟩

theorem Inside.across (within : inner.Inside outer) {x : Rat}
    (across : inner.Across x) : outer.Across x :=
  ⟨within.1.trans across.1, across.2.trans within.2.1⟩

theorem Inside.along (within : inner.Inside outer) {y : Rat}
    (along : inner.Along y) : outer.Along y :=
  ⟨within.2.2.1.trans along.1, along.2.trans within.2.2.2⟩

theorem Along.half {first second : Rat} (along : rect.Along first)
    (alongToo : rect.Along second) :
    rect.Along (Scalar.half (first + second)) := by
  obtain ⟨above, below⟩ := along
  obtain ⟨aboveToo, belowToo⟩ := alongToo
  rw [half_exact]
  exact ⟨by linarith, by linarith⟩

end Rect

end Flowchart
