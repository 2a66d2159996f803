import Flowchart.Number.Decimal
import Flowchart.Settings.Basic

/-!
Settings read from the values of a configuration.

Keys that mean nothing are passed over, and what is missing keeps its standard
value.  A group of settings may also be written as a list of its values in
their order.
-/

namespace Flowchart.Settings

/-- A value of a configuration. -/
inductive Value where
  | null
  | boolean (value : Bool)
  | integer (value : Int)
  | float (value : Float)
  /-- A number out of all range, which nothing can be read from. -/
  | excessive
  | text (value : String)
  | list (values : List Value)
  | table (entries : List (String × Value))
deriving Inhabited

/-- What becomes of the values of a list that stand for no setting. -/
inductive Surplus where
  | ignored
  | refused
deriving DecidableEq, Repr

namespace Value

mutual

/-- Whether there is no excessive number anywhere in a value. -/
def isLegible : Value → Bool
  | .excessive => false
  | .list values => areLegible values
  | .table entries => entriesLegible entries
  | _ => true

def areLegible : List Value → Bool
  | [] => true
  | value :: rest => value.isLegible && areLegible rest

def entriesLegible : List (String × Value) → Bool
  | [] => true
  | (_, value) :: rest => value.isLegible && entriesLegible rest

end

/-- A group with the given keys is a table, or a list of the values for these
keys.  Keys that mean nothing may have any legible value. -/
def isGroup (surplus : Surplus) (keys : List String) : Value → Bool
  | .table entries =>
      entries.all fun (key, value) => keys.contains key || value.isLegible
  | .list values =>
      decide (surplus = .ignored) || decide (values.length ≤ keys.length)
  | _ => false

/-- The value of a field: found by its key in a table, or by the place of its
key in a list. -/
def field? (group : Value) (keys : List String) (key : String) : Option Value :=
  match group with
  | .table entries => entries.lookup key
  | .list values => values[keys.idxOf key]?
  | _ => none

/-- A field that keeps its standard value if it is missing. -/
def fieldOr {β : Type} (group : Value) (keys : List String) (key : String)
    (standard : β) (read : Value → Option β) : Option β :=
  match group.field? keys key with
  | none => some standard
  | some value => read value

/-- The integers that a setting can hold have sixty-four bits, with a sign or
without one. -/
def isStorable (value : Int) : Bool :=
  decide (-Number.twoTo 63 ≤ value) && decide (value < Number.twoTo 64)

/-- An integer is rounded once, whatever its size. -/
def number? : Value → Option Float32
  | .integer value =>
      if isStorable value then some (Number.Decimal.ofInt value).toSingle
      else none
  | .float value => some (Number.singleOfDouble value)
  | _ => none

/-- A count fits into sixty-four bits. -/
def count? : Value → Option Nat
  | .integer value =>
      if 0 ≤ value && value < Number.twoTo 64 then some value.toNat else none
  | _ => none

/-- A text, or nothing where that is written out. -/
def optionalText? : Value → Option (Option String)
  | .null => some none
  | .text value => some (some value)
  | _ => none

def sizeKeys : List String := ["width", "height"]

/-- A size needs both of its dimensions. -/
def size? (surplus : Surplus) (value : Value) : Option (Size Float32) := do
  guard (value.isGroup surplus sizeKeys)
  let width ← value.field? sizeKeys "width"
  let height ← value.field? sizeKeys "height"
  return ⟨← width.number?, ← height.number?⟩

def insetsKeys : List String := ["top", "right", "bottom", "left"]

/-- A side of a padding that is not given is zero. -/
def insets? (surplus : Surplus) (value : Value) : Option (Insets Float32) := do
  guard (value.isGroup surplus insetsKeys)
  let side (key : String) : Option Float32 :=
    value.fieldOr insetsKeys key 0 number?
  return {
    top := ← side "top"
    right := ← side "right"
    bottom := ← side "bottom"
    left := ← side "left" }

def minimumSizesKeys : List String :=
  ["statement", "condition", "loop_header", "terminal", "header",
    "type_definition"]

def minimumSizes? (surplus : Surplus) (value : Value) :
    Option (MinimumSizes Float32) := do
  guard (value.isGroup surplus minimumSizesKeys)
  let size (key : String) (standard : Size Float32) : Option (Size Float32) :=
    value.fieldOr minimumSizesKeys key standard (size? surplus)
  let standard : MinimumSizes Float32 := .standard
  return {
    statement := ← size "statement" standard.statement
    condition := ← size "condition" standard.condition
    loopHeader := ← size "loop_header" standard.loopHeader
    terminal := ← size "terminal" standard.terminal
    header := ← size "header" standard.header
    typeDefinition := ← size "type_definition" standard.typeDefinition }

def layoutKeys : List String :=
  ["statement_spacing", "branch_gap", "loop_clearance", "container_padding",
    "max_depth", "minimum_sizes"]

def layout? (surplus : Surplus) (value : Value) :
    Option (LayoutSettings Float32) := do
  guard (value.isGroup surplus layoutKeys)
  let field {β : Type} (key : String) (standard : β)
      (read : Value → Option β) : Option β :=
    value.fieldOr layoutKeys key standard read
  let standard : LayoutSettings Float32 := .standard
  return {
    statementSpacing :=
      ← field "statement_spacing" standard.statementSpacing number?
    branchGap := ← field "branch_gap" standard.branchGap number?
    loopClearance := ← field "loop_clearance" standard.loopClearance number?
    padding := ← field "container_padding" standard.padding (insets? surplus)
    maxDepth := ← field "max_depth" standard.maxDepth count?
    minimumSizes :=
      ← field "minimum_sizes" standard.minimumSizes (minimumSizes? surplus) }

def styleKeys : List String := ["background_color", "line_color"]

def style? (surplus : Surplus) (value : Value) : Option StyleSettings := do
  guard (value.isGroup surplus styleKeys)
  let color (key : String) : Option (Option String) :=
    value.fieldOr styleKeys key none optionalText?
  return {
    backgroundColor := ← color "background_color"
    lineColor := ← color "line_color" }

def zoomKeys : List String := ["min_zoom", "max_zoom", "initial_zoom"]

def zoom? (surplus : Surplus) (value : Value) :
    Option (ZoomSettings Float32) := do
  guard (value.isGroup surplus zoomKeys)
  let zoom (key : String) (standard : Float32) : Option Float32 :=
    value.fieldOr zoomKeys key standard number?
  let standard : ZoomSettings Float32 := .standard
  return {
    minZoom := ← zoom "min_zoom" standard.minZoom
    maxZoom := ← zoom "max_zoom" standard.maxZoom
    initialZoom := ← zoom "initial_zoom" standard.initialZoom }

end Value

def sectionKeys : List String := ["layout", "style", "canvas"]

/-- The settings that a configuration gives, unless it is not one. -/
def ofValue? (surplus : Surplus) (value : Value) : Option Settings := do
  guard (value.isGroup surplus sectionKeys)
  return {
    layout :=
      ← value.fieldOr sectionKeys "layout" .standard (Value.layout? surplus)
    style :=
      ← value.fieldOr sectionKeys "style" .standard (Value.style? surplus)
    zoom :=
      ← value.fieldOr sectionKeys "canvas" .standard (Value.zoom? surplus) }

end Flowchart.Settings
