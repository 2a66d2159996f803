import Flowchart.Proofs.Geometry.Rect
import Flowchart.Proofs.Settings.Accepted
import Flowchart.Proofs.View.Redraw

/-!
# What a viewport shows where

Whatever was done to a viewport, its zoom lies between limits above zero.  So the
plane and the screen are mapped to each other without loss, and the point that is
zoomed about stays where it is, also where the limits cut the zoom off.
-/

namespace Flowchart

open Scalar

theorem Scalar.clamp_exact {low high : Rat} (ordered : low ≤ high) (value : Rat) :
    clamp low high value = max low (min high value) := by
  unfold clamp
  split
  · rename_i isLow
    rw [min_eq_right (isLow.le.trans ordered), max_eq_left isLow.le]
  · rename_i notLow
    split
    · rename_i isHigh
      rw [min_eq_left isHigh.le, max_eq_right ordered]
    · rename_i notHigh
      rw [min_eq_right (not_lt.mp notHigh), max_eq_right (not_lt.mp notLow)]

namespace Viewport

/-- The viewport after changes, one after the other. -/
def run {α : Type} [Scalar α] (viewport : Viewport α) (changes : List (Change α)) :
    Viewport α :=
  changes.foldl apply viewport

variable {limits : ZoomSettings Rat} {viewport : Viewport Rat}

/-! ## The limits -/

/-- The viewport keeps to limits above zero. -/
structure KeepsTo (limits : ZoomSettings Rat) (viewport : Viewport Rat) : Prop where
  isMin : viewport.minZoom = limits.minZoom
  isMax : viewport.maxZoom = limits.maxZoom
  positive : 0 < limits.minZoom
  least : limits.minZoom ≤ viewport.zoom
  greatest : viewport.zoom ≤ limits.maxZoom

theorem keepsTo_initial (accepted : limits.validate = .ok ()) (screen : Size Rat) :
    (initial limits screen).KeepsTo limits := by
  obtain ⟨positive, least, greatest⟩ := ZoomSettings.of_validate accepted
  exact ⟨rfl, rfl, positive, least, greatest⟩

namespace KeepsTo

theorem ordered (keeps : viewport.KeepsTo limits) : limits.minZoom ≤ limits.maxZoom :=
  keeps.least.trans keeps.greatest

theorem zoom_ne_zero (keeps : viewport.KeepsTo limits) : viewport.zoom ≠ 0 :=
  (keeps.positive.trans_le keeps.least).ne'

theorem zoom_setZoom (keeps : viewport.KeepsTo limits) (zoom : Rat) :
    (viewport.setZoom zoom).zoom = max limits.minZoom (min limits.maxZoom zoom) := by
  change clamp viewport.minZoom viewport.maxZoom zoom = _
  rw [keeps.isMin, keeps.isMax, clamp_exact keeps.ordered]

theorem setZoom (keeps : viewport.KeepsTo limits) (zoom : Rat) :
    (viewport.setZoom zoom).KeepsTo limits := by
  have isZoom := keeps.zoom_setZoom zoom
  refine ⟨keeps.isMin, keeps.isMax, keeps.positive, ?_, ?_⟩
  · rw [isZoom]
    exact le_max_left _ _
  · rw [isZoom]
    exact max_le keeps.ordered (min_le_left _ _)

theorem zoomAbout (keeps : viewport.KeepsTo limits) (point : Point Rat)
    (factor : Rat) : (viewport.zoomAbout point factor).KeepsTo limits := by
  have zoomed := keeps.setZoom (viewport.zoom * factor)
  exact ⟨zoomed.isMin, zoomed.isMax, zoomed.positive, zoomed.least, zoomed.greatest⟩

theorem apply (keeps : viewport.KeepsTo limits) (change : Change Rat) :
    (viewport.apply change).KeepsTo limits := by
  cases change with
  | setPan | panBy | resize =>
      exact ⟨keeps.isMin, keeps.isMax, keeps.positive, keeps.least, keeps.greatest⟩
  | setZoom zoom => exact keeps.setZoom zoom
  | zoomAbout point factor => exact keeps.zoomAbout point factor

theorem run (keeps : viewport.KeepsTo limits) (changes : List (Change Rat)) :
    (viewport.run changes).KeepsTo limits := by
  induction changes generalizing viewport with
  | nil => exact keeps
  | cons change rest ih => exact ih (keeps.apply change)

end KeepsTo

/-! ## The plane and the screen -/

theorem toScreen_exact (point : Point Rat) :
    viewport.toScreen point =
      ⟨point.x * viewport.zoom + viewport.pan.x,
        point.y * viewport.zoom + viewport.pan.y⟩ := rfl

theorem toDiagram_exact (point : Point Rat) :
    viewport.toDiagram point =
      ⟨(point.x - viewport.pan.x) / viewport.zoom,
        (point.y - viewport.pan.y) / viewport.zoom⟩ := by
  have divided : viewport.toDiagram point =
      ⟨(point.x - viewport.pan.x) * (1 / viewport.zoom),
        (point.y - viewport.pan.y) * (1 / viewport.zoom)⟩ := rfl
  rw [divided, mul_one_div, mul_one_div]

theorem toScreen_toDiagram (notZero : viewport.zoom ≠ 0) (point : Point Rat) :
    viewport.toScreen (viewport.toDiagram point) = point := by
  rw [toScreen_exact, toDiagram_exact, div_mul_cancel₀ _ notZero,
    div_mul_cancel₀ _ notZero, sub_add_cancel, sub_add_cancel]

theorem toDiagram_toScreen (notZero : viewport.zoom ≠ 0) (point : Point Rat) :
    viewport.toDiagram (viewport.toScreen point) = point := by
  rw [toDiagram_exact, toScreen_exact, add_sub_cancel_right, add_sub_cancel_right,
    mul_div_cancel_right₀ _ notZero, mul_div_cancel_right₀ _ notZero]

/-- The pan is taken anew from the point of the plane and the new zoom, whatever
that zoom is. -/
theorem toDiagram_zoomAbout {point : Point Rat} {factor : Rat}
    (notZero : (viewport.zoomAbout point factor).zoom ≠ 0) :
    (viewport.zoomAbout point factor).toDiagram point =
      viewport.toDiagram point := by
  have panned : (viewport.zoomAbout point factor).toScreen (viewport.toDiagram point) =
      point := by
    have isPan : (viewport.zoomAbout point factor).pan =
        ⟨point.x - (viewport.toDiagram point).x * (viewport.zoomAbout point factor).zoom,
          point.y -
            (viewport.toDiagram point).y * (viewport.zoomAbout point factor).zoom⟩ := rfl
    rw [toScreen_exact, isPan, add_sub_cancel, add_sub_cancel]
  have back := toDiagram_toScreen notZero (viewport.toDiagram point)
  rw [panned] at back
  exact back

theorem toScreen_topLeft (notZero : viewport.zoom ≠ 0) :
    viewport.toScreen viewport.visibleRegion.topLeft = .origin :=
  toScreen_toDiagram notZero .origin

theorem toScreen_bottomRight (notZero : viewport.zoom ≠ 0) :
    viewport.toScreen
        ⟨viewport.visibleRegion.maxX, viewport.visibleRegion.maxY⟩ =
      ⟨viewport.screen.width, viewport.screen.height⟩ := by
  have corner : (⟨viewport.visibleRegion.maxX, viewport.visibleRegion.maxY⟩ :
      Point Rat) =
        viewport.toDiagram ⟨viewport.screen.width, viewport.screen.height⟩ := by
    have summed : (⟨viewport.visibleRegion.maxX, viewport.visibleRegion.maxY⟩ :
        Point Rat) =
          ⟨(viewport.toDiagram .origin).x + viewport.screen.width / viewport.zoom,
            (viewport.toDiagram .origin).y +
              viewport.screen.height / viewport.zoom⟩ := rfl
    rw [summed, toDiagram_exact, toDiagram_exact, Point.origin_x, Point.origin_y,
      ← add_div, ← add_div, zero_sub, zero_sub, neg_add_eq_sub, neg_add_eq_sub]
  rw [corner]
  exact toScreen_toDiagram notZero _

/-! ## Whatever was done -/

/-- What holds of a viewport between two changes. -/
structure IsFaithful (limits : ZoomSettings Rat) (viewport : Viewport Rat) : Prop where
  least : limits.minZoom ≤ viewport.zoom
  greatest : viewport.zoom ≤ limits.maxZoom
  screen : ∀ point, viewport.toScreen (viewport.toDiagram point) = point
  plane : ∀ point, viewport.toDiagram (viewport.toScreen point) = point
  cutOff : ∀ point factor, (viewport.zoomAbout point factor).zoom =
    max limits.minZoom (min limits.maxZoom (viewport.zoom * factor))
  fixed : ∀ point factor,
    (viewport.zoomAbout point factor).toDiagram point = viewport.toDiagram point
  topLeft : viewport.toScreen viewport.visibleRegion.topLeft = .origin
  bottomRight : viewport.toScreen
      ⟨viewport.visibleRegion.maxX, viewport.visibleRegion.maxY⟩ =
    ⟨viewport.screen.width, viewport.screen.height⟩

/-- With accepted limits, whatever the screen and whatever is done to the viewport,
the zoom keeps to the limits, plane and screen are mapped to each other without
loss, zooming leaves the point that is zoomed about, and the visible region fills
the screen. -/
theorem run_faithful {limits : ZoomSettings Rat} (accepted : limits.validate = .ok ())
    (screen : Size Rat) (changes : List (Change Rat)) :
    ((initial limits screen).run changes).IsFaithful limits := by
  have keeps : ((initial limits screen).run changes).KeepsTo limits :=
    (keepsTo_initial accepted screen).run changes
  generalize (initial limits screen).run changes = viewport at keeps
  have notZero := keeps.zoom_ne_zero
  exact {
    least := keeps.least
    greatest := keeps.greatest
    screen := toScreen_toDiagram notZero
    plane := toDiagram_toScreen notZero
    cutOff := fun point factor => keeps.zoom_setZoom (viewport.zoom * factor)
    fixed := fun point factor =>
      toDiagram_zoomAbout (keeps.zoomAbout point factor).zoom_ne_zero
    topLeft := toScreen_topLeft notZero
    bottomRight := toScreen_bottomRight notZero }

/-- A viewport that was moved, and then zoomed further in than its limits allow. -/
theorem run_faithful_zoomedIn :
    (ZoomSettings.standard : ZoomSettings Rat).validate = .ok () ∧
      ((initial .standard ⟨400, 300⟩).run
        [.panBy ⟨-20, 5⟩, .resize ⟨640, 480⟩, .zoomAbout ⟨100, 50⟩ 100]).IsFaithful
          .standard ∧
      ((initial .standard ⟨400, 300⟩).run
        [.panBy ⟨-20, 5⟩, .resize ⟨640, 480⟩, .zoomAbout ⟨100, 50⟩ 100]).toDiagram
          ⟨100, 50⟩ = (⟨120, 45⟩ : Point Rat) := by
  have accepted : (ZoomSettings.standard : ZoomSettings Rat).validate = .ok () := by
    decide +kernel
  have before := run_faithful accepted ⟨400, 300⟩
    [.panBy ⟨-20, 5⟩, .resize ⟨640, 480⟩]
  refine ⟨accepted, run_faithful accepted _ _, ?_⟩
  exact (before.fixed ⟨100, 50⟩ 100).trans (by decide +kernel)

end Viewport

end Flowchart
