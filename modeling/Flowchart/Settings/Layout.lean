import Flowchart.Number.Shortest
import Flowchart.Tree.Construct

/-!
The distances and sizes that a layout keeps to, and the zoom of a view.
-/

namespace Flowchart

open Scalar

structure LayoutSettings (α : Type) where
  /-- Between the members of a block, and below every figure. -/
  statementSpacing : α
  /-- Between the columns of a decision or a selection. -/
  branchGap : α
  /-- Beside the body of a loop. -/
  loopClearance : α
  /-- Around the contents of a function or a service. -/
  padding : Insets α
  maxDepth : Nat
  minimumSizes : MinimumSizes α
deriving DecidableEq, BEq, Repr, Inhabited

/-- The zoom of a view stays between its limits. -/
structure ZoomSettings (α : Type) where
  minZoom : α
  maxZoom : α
  initialZoom : α
deriving DecidableEq, BEq, Repr, Inhabited

/-- Why settings cannot be used. -/
inductive SettingsError (α : Type) where
  | notPositive (name : String) (value : α)
  | negative (name : String) (value : α)
  | minimumSize (name : String)
  | depth (value : Nat)
  | zoomRange (zoom : ZoomSettings α)
  | color (name : String) (reason : String)
deriving DecidableEq, Repr

namespace LayoutSettings

variable {α : Type} [Scalar α]

/-- No program may be nested deeper than this, whatever the settings. -/
def depthLimit : Nat := 256

def standard : LayoutSettings α where
  statementSpacing := ofNat 24
  branchGap := ofNat 40
  loopClearance := ofNat 24
  padding := .uniform (ofNat 16)
  maxDepth := 64
  minimumSizes := .standard

/-- Passes a distance that is finite and greater than zero. -/
def checkPositive (name : String) (value : α) :
    Except (SettingsError α) Unit :=
  if !isFinite value || decide (value ≤ zero) then
    .error (.notPositive name value)
  else .ok ()

/-- Passes a distance that is finite and not below zero. -/
def checkNotNegative (name : String) (value : α) :
    Except (SettingsError α) Unit :=
  if !isFinite value || decide (value < zero) then
    .error (.negative name value)
  else .ok ()

/-- Passes a size that encloses an area. -/
def checkMinimum (name : String) (size : Size α) :
    Except (SettingsError α) Unit :=
  if !size.isValid || decide (size.width ≤ zero) ||
      decide (size.height ≤ zero) then
    .error (.minimumSize name)
  else .ok ()

/-- Checks the distances, the padding from the top clockwise, the sizes and
the depth, and reports the first that cannot be used. -/
def validate (settings : LayoutSettings α) :
    Except (SettingsError α) Unit := do
  checkPositive "statement_spacing" settings.statementSpacing
  checkPositive "branch_gap" settings.branchGap
  checkPositive "loop_clearance" settings.loopClearance
  checkNotNegative "container_padding" settings.padding.top
  checkNotNegative "container_padding" settings.padding.right
  checkNotNegative "container_padding" settings.padding.bottom
  checkNotNegative "container_padding" settings.padding.left
  settings.minimumSizes.toList.forM fun (name, size) => checkMinimum name size
  if settings.maxDepth < 1 || depthLimit < settings.maxDepth then
    throw (.depth settings.maxDepth)

end LayoutSettings

namespace ZoomSettings

variable {α : Type} [Scalar α]

def standard : ZoomSettings α where
  minZoom := ofNat 1 / ofNat 10
  maxZoom := ofNat 8
  initialZoom := ofNat 1

/-- Passes a zoom that starts between two finite limits above zero. -/
def validate (zoom : ZoomSettings α) : Except (SettingsError α) Unit :=
  let finite :=
    [zoom.minZoom, zoom.maxZoom, zoom.initialZoom].all Scalar.isFinite
  let ordered :=
    decide (zero < zoom.minZoom) &&
      decide (zoom.minZoom ≤ zoom.initialZoom) &&
      decide (zoom.initialZoom ≤ zoom.maxZoom)
  if finite && ordered then .ok () else .error (.zoomRange zoom)

end ZoomSettings

namespace SettingsError

open Number in
def message : SettingsError Float32 → String
  | .notPositive name value =>
      "`" ++ name ++ "` must be a finite, positive number (got " ++
        text value ++ ")"
  | .negative name value =>
      "`" ++ name ++ "` must be a finite, non-negative number (got " ++
        text value ++ ")"
  | .minimumSize name =>
      "minimum size `" ++ name ++ "` must have positive width and height"
  | .depth value =>
      "`max_depth` must be between 1 and " ++
        toString LayoutSettings.depthLimit ++ " (got " ++ toString value ++ ")"
  | .zoomRange zoom =>
      "invalid zoom range: min " ++ text zoom.minZoom ++ ", max " ++
        text zoom.maxZoom ++ ", initial " ++ text zoom.initialZoom
  | .color name reason => "invalid colour for `" ++ name ++ "`: " ++ reason

end SettingsError

end Flowchart
