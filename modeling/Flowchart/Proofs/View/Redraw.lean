import Flowchart.Proofs.Results
import Flowchart.Proofs.Scalar.Single
import Flowchart.View.Canvas

/-!
# Pictures drawn again

A view draws only if the last picture does not hold any more.  Whether it holds is
read off an equation between viewports, and an undefined number is not equal to
itself: a view whose pan or screen is undefined takes every picture for outdated.
Nothing else can make it draw twice, whatever was done to the view before.
-/

namespace Flowchart

open Scalar

/-! ## What is done to a view -/

inductive Viewport.Change (α : Type) where
  | setPan (pan : Point α)
  | panBy (offset : Point α)
  | setZoom (zoom : α)
  | zoomAbout (point : Point α) (factor : α)
  | resize (screen : Size α)

def Viewport.apply {α : Type} [Scalar α] (viewport : Viewport α) :
    Change α → Viewport α
  | .setPan pan => viewport.setPan pan
  | .panBy offset => viewport.panBy offset
  | .setZoom zoom => viewport.setZoom zoom
  | .zoomAbout point factor => viewport.zoomAbout point factor
  | .resize screen => viewport.resize screen

inductive Canvas.Action (α : Type) where
  | setSnapshot (snapshot : Snapshot α)
  | adjust (change : Viewport.Change α)
  | redraw

namespace Canvas

variable {α : Type} [Scalar α]

/-- The view after an action.  Where no picture can be drawn, nothing is done. -/
def act (canvas : Canvas α) : Action α → Canvas α
  | .setSnapshot snapshot => canvas.setSnapshot snapshot
  | .adjust change => canvas.adjust (·.apply change)
  | .redraw =>
      match canvas.redraw with
      | .ok (_, next) => next
      | .error _ => canvas

def run (canvas : Canvas α) (actions : List (Action α)) : Canvas α :=
  actions.foldl act canvas

end Canvas

/-! ## The zoom -/

theorem Scalar.clamp_cases {α : Type} [Scalar α] (low high value : α) :
    clamp low high value = low ∨ clamp low high value = high ∨
      clamp low high value = value := by
  unfold clamp
  split
  · exact .inl rfl
  · split
    · exact .inr (.inl rfl)
    · exact .inr (.inr rfl)

namespace Viewport

variable {α : Type} [Scalar α] {viewport : Viewport α}

/-- The zoom and its limits are finite numbers. -/
structure ZoomsFinitely (viewport : Viewport α) : Prop where
  minZoom : isFinite viewport.minZoom = true
  maxZoom : isFinite viewport.maxZoom = true
  zoom : isFinite viewport.zoom = true

theorem ZoomsFinitely.setZoom (finitely : viewport.ZoomsFinitely) (zoom : α) :
    (viewport.setZoom zoom).ZoomsFinitely := by
  unfold Viewport.setZoom
  split
  · rename_i isFinite
    refine ⟨finitely.minZoom, finitely.maxZoom, ?_⟩
    dsimp only
    rcases clamp_cases viewport.minZoom viewport.maxZoom zoom with
      isLow | isHigh | isGiven
    · rw [isLow]
      exact finitely.minZoom
    · rw [isHigh]
      exact finitely.maxZoom
    · rw [isGiven]
      exact isFinite
  · exact finitely

theorem ZoomsFinitely.apply (finitely : viewport.ZoomsFinitely)
    (change : Change α) : (viewport.apply change).ZoomsFinitely := by
  cases change with
  | setPan | panBy | resize =>
      exact ⟨finitely.minZoom, finitely.maxZoom, finitely.zoom⟩
  | setZoom zoom => exact finitely.setZoom zoom
  | zoomAbout point factor =>
      have zoomed := finitely.setZoom (viewport.zoom * factor)
      exact ⟨zoomed.minZoom, zoomed.maxZoom, zoomed.zoom⟩

/-- Neither the pan nor the screen has an undefined coordinate. -/
structure IsDefined (viewport : Viewport α) : Prop where
  panX : isUndefined viewport.pan.x = false
  panY : isUndefined viewport.pan.y = false
  screenWidth : isUndefined viewport.screen.width = false
  screenHeight : isUndefined viewport.screen.height = false

end Viewport

namespace Viewport

theorem beq_iff {α : Type} [Scalar α] {left right : Viewport α} :
    (left == right) = true ↔
      ((left.pan.x == right.pan.x) = true ∧ (left.pan.y == right.pan.y) = true) ∧
      (left.zoom == right.zoom) = true ∧
      (left.minZoom == right.minZoom) = true ∧
      (left.maxZoom == right.maxZoom) = true ∧
      (left.screen.width == right.screen.width) = true ∧
      (left.screen.height == right.screen.height) = true := by
  have expanded : (left == right) =
      ((left.pan.x == right.pan.x && left.pan.y == right.pan.y) &&
        (left.zoom == right.zoom && (left.minZoom == right.minZoom &&
          (left.maxZoom == right.maxZoom &&
            (left.screen.width == right.screen.width &&
              left.screen.height == right.screen.height))))) := rfl
  rw [expanded]
  simp only [Bool.and_eq_true]

variable {viewport other : Viewport Float32}

theorem isDefined_of_beq (same : (other == viewport) = true) :
    viewport.IsDefined := by
  obtain ⟨⟨panX, panY⟩, -, -, -, width, height⟩ := beq_iff.mp same
  exact {
    panX := Single.defined_of_beq panX
    panY := Single.defined_of_beq panY
    screenWidth := Single.defined_of_beq width
    screenHeight := Single.defined_of_beq height }

theorem beq_self (finitely : viewport.ZoomsFinitely)
    (defined : viewport.IsDefined) : (viewport == viewport) = true :=
  beq_iff.mpr ⟨⟨Single.beq_self_of_defined defined.panX,
    Single.beq_self_of_defined defined.panY⟩,
    Single.beq_self finitely.zoom, Single.beq_self finitely.minZoom,
    Single.beq_self finitely.maxZoom,
    Single.beq_self_of_defined defined.screenWidth,
    Single.beq_self_of_defined defined.screenHeight⟩

end Viewport

namespace Canvas

/-! ## What is never lost -/

section Opened

variable {α : Type} [Scalar α] {canvas : Canvas α}

/-- The target is acquired, and the zoom is finite. -/
structure IsOpen (canvas : Canvas α) : Prop where
  acquired : canvas.backend.isAcquired = true
  zooms : canvas.viewport.ZoomsFinitely

theorem isOpen_of_create {snapshot : Snapshot α} {backend : Backend α}
    {settings : ZoomSettings α} {screen : Size α}
    (opened : create snapshot backend settings screen = .ok canvas) :
    canvas.IsOpen := by
  obtain ⟨⟨⟩, accepted, created⟩ := bind_eq_ok.mp opened
  obtain ⟨acquired, isAcquired, isCanvas⟩ := bind_eq_ok.mp created
  cases isCanvas
  constructor
  · unfold Backend.acquire at isAcquired
    split at isAcquired <;> cases isAcquired
    rfl
  · unfold ZoomSettings.validate at accepted
    dsimp only at accepted
    split at accepted
    · rename_i sound
      simp only [List.all_cons, List.all_nil, Bool.and_eq_true] at sound
      obtain ⟨⟨minZoom, maxZoom, initialZoom, -⟩, -⟩ := sound
      exact ⟨minZoom, maxZoom, initialZoom⟩
    · cases accepted

/-- The view after a picture was drawn. -/
def drawn (canvas : Canvas α) : Canvas α :=
  { canvas with
    backend :=
      { canvas.backend with
        frames := canvas.backend.frames ++
          [canvas.backend.picture canvas.snapshot.diagram canvas.viewport] }
    lastDrawn := some (canvas.snapshot.number, canvas.viewport) }

theorem redraw_of_isCurrent (current : canvas.isCurrent = true) :
    canvas.redraw = .ok (false, canvas) := by
  unfold redraw
  rw [if_pos current]

theorem IsOpen.redraw (isOpen : canvas.IsOpen)
    (outdated : canvas.isCurrent = false) :
    canvas.redraw = .ok (true, canvas.drawn) := by
  unfold Canvas.redraw Backend.present
  rw [outdated, if_neg Bool.false_ne_true, if_pos isOpen.acquired]
  rfl

theorem IsOpen.drawn (isOpen : canvas.IsOpen) : canvas.drawn.IsOpen :=
  ⟨isOpen.acquired, isOpen.zooms⟩

theorem IsOpen.act (isOpen : canvas.IsOpen) (action : Action α) :
    (canvas.act action).IsOpen := by
  cases action with
  | setSnapshot snapshot => exact ⟨isOpen.acquired, isOpen.zooms⟩
  | adjust change => exact ⟨isOpen.acquired, isOpen.zooms.apply change⟩
  | redraw =>
      unfold Canvas.act
      dsimp only
      cases current : canvas.isCurrent with
      | true =>
          rw [redraw_of_isCurrent current]
          exact isOpen
      | false =>
          rw [isOpen.redraw current]
          exact isOpen.drawn

theorem IsOpen.run (isOpen : canvas.IsOpen) (actions : List (Action α)) :
    (canvas.run actions).IsOpen := by
  induction actions generalizing canvas with
  | nil => exact isOpen
  | cons action rest ih => exact ih (isOpen.act action)

/-- A picture just drawn holds if the viewport equals itself. -/
theorem isCurrent_drawn :
    canvas.drawn.isCurrent = (canvas.viewport == canvas.viewport) := by
  unfold isCurrent drawn
  simp

end Opened

/-! ## Drawing twice -/

variable {canvas : Canvas Float32}

theorem isDefined_of_isCurrent (current : canvas.isCurrent = true) :
    canvas.viewport.IsDefined := by
  unfold isCurrent at current
  cases isLast : canvas.lastDrawn with
  | none =>
      rw [isLast] at current
      cases current
  | some last =>
      rw [isLast, Option.any_some, Bool.and_eq_true] at current
      exact Viewport.isDefined_of_beq current.2

/-- A picture just drawn holds unless the viewport is undefined. -/
theorem IsOpen.isCurrent_drawn_iff (isOpen : canvas.IsOpen) :
    canvas.drawn.isCurrent = true ↔ canvas.viewport.IsDefined := by
  constructor
  · exact isDefined_of_isCurrent
  · intro defined
    rw [isCurrent_drawn]
    exact Viewport.beq_self isOpen.zooms defined

/-- Whatever was done to a view, it can be drawn.  If it is drawn once more, the
view stays as it is, and no picture is added, unless the pan or the screen is
undefined; then the same picture is added again. -/
theorem redraw_settles_iff {start : Canvas Float32} {snapshot : Snapshot Float32}
    {backend : Backend Float32} {settings : ZoomSettings Float32}
    {screen : Size Float32}
    (opened : create snapshot backend settings screen = .ok start)
    (actions : List (Action Float32)) :
    ∃ drew next, (start.run actions).redraw = .ok (drew, next) ∧
      (next.redraw = .ok (false, next) ↔
        (start.run actions).viewport.IsDefined) ∧
      (¬ (start.run actions).viewport.IsDefined →
        drew = true ∧ next.redraw = .ok (true, next.drawn)) := by
  have isOpen : (start.run actions).IsOpen := (isOpen_of_create opened).run actions
  generalize start.run actions = canvas at isOpen
  cases current : canvas.isCurrent with
  | true =>
      have defined := isDefined_of_isCurrent current
      have kept := redraw_of_isCurrent current
      exact ⟨false, canvas, kept, iff_of_true kept defined, absurd defined⟩
  | false =>
      refine ⟨true, canvas.drawn, isOpen.redraw current, ?_, ?_⟩
      · rw [← isOpen.isCurrent_drawn_iff]
        constructor
        · intro kept
          cases again : canvas.drawn.isCurrent with
          | true => rfl
          | false =>
              rw [isOpen.drawn.redraw again] at kept
              cases kept
        · exact redraw_of_isCurrent
      · intro notDefined
        have outdated : canvas.drawn.isCurrent = false :=
          Bool.eq_false_iff.mpr (notDefined ∘ isOpen.isCurrent_drawn_iff.mp)
        exact ⟨rfl, isOpen.drawn.redraw outdated⟩

/-- A view of an empty block. -/
def emptyBlock : Canvas Float32 where
  backend := ⟨fun _ _ => "block", [], true⟩
  snapshot :=
    ⟨0, ⟨⟨"root", ⟨0, 0, 160, 36⟩,
      [⟨"root", .block, "", ⟨0, 0, 160, 36⟩, some ⟨0, 0, 160, 36⟩,
        [(.entry, ⟨80, 0⟩), (.exit, ⟨80, 36⟩)], none, 0, true⟩], []⟩, []⟩⟩
  viewport := .initial .standard ⟨400, 300⟩
  lastDrawn := none

theorem create_emptyBlock :
    create emptyBlock.snapshot (.released fun _ _ => "block") .standard ⟨400, 300⟩ =
      .ok emptyBlock := by
  have accepted : (ZoomSettings.standard : ZoomSettings Float32).validate = .ok () := by
    decide +kernel
  unfold create
  rw [accepted]
  rfl

theorem redraw_settles_iff_panned :
    create emptyBlock.snapshot (.released fun _ _ => "block") .standard ⟨400, 300⟩ =
        .ok emptyBlock ∧
      ∃ drew next,
        (emptyBlock.run [.redraw, .adjust (.panBy ⟨10, 0⟩)]).redraw =
            .ok (drew, next) ∧
          next.redraw = .ok (false, next) := by
  obtain ⟨drew, next, first, settles, -⟩ := redraw_settles_iff create_emptyBlock
    [.redraw, .adjust (.panBy ⟨10, 0⟩)]
  exact ⟨create_emptyBlock, drew, next, first, settles.mpr
    ⟨by decide +kernel, by decide +kernel, by decide +kernel, by decide +kernel⟩⟩

/-- After the pan was set to an undefined number, a view is drawn over and over. -/
theorem not_all_redraws_settle :
    ¬ ∀ (snapshot : Snapshot Float32) (backend : Backend Float32)
      (settings : ZoomSettings Float32) (screen : Size Float32)
      (start : Canvas Float32),
      create snapshot backend settings screen = .ok start →
        ∀ actions drew next, (start.run actions).redraw = .ok (drew, next) →
          next.redraw = .ok (false, next) := by
  intro settles
  let lost : List (Action Float32) := [.adjust (.setPan ⟨Float32.nan, 0⟩)]
  have isOpen : (emptyBlock.run lost).IsOpen :=
    (isOpen_of_create create_emptyBlock).run lost
  have first : (emptyBlock.run lost).redraw = .ok (true, (emptyBlock.run lost).drawn) :=
    isOpen.redraw rfl
  have outdated : (emptyBlock.run lost).drawn.isCurrent = false := by decide +kernel
  have again := isOpen.drawn.redraw outdated
  rw [settles _ _ _ _ _ create_emptyBlock lost _ _ first] at again
  cases again

end Canvas

end Flowchart
