import Flowchart.Layout.Engine
import Flowchart.Outline.Error
import Flowchart.View.Canvas

/-!
All that can go wrong between the files and the drawing, and how it is told.
-/

namespace Flowchart

/-- Why a diagram cannot be drawn. -/
inductive DrawingError where
  | style (error : SettingsError Float32)
  | backend (error : BackendError)
deriving Repr

namespace DrawingError

def message : DrawingError → String
  | .style error => "render error: " ++ error.message
  | .backend error => "render error: " ++ error.message

end DrawingError

inductive Failure where
  | file (reason : String)
  | outline (error : Outline.Error)
  | layout (error : LayoutError)
  | settings (error : SettingsError Float32)
  | drawing (error : DrawingError)
deriving Repr

namespace Failure

def message : Failure → String
  | .file reason => "I/O error: " ++ reason
  | .outline error => error.message
  | .layout error => error.message
  | .settings error => "Configuration error: " ++ error.message
  | .drawing error => "Export error: " ++ error.message

def ofCanvasError : CanvasError Float32 → Failure
  | .settings error => .settings error
  | .backend error => .drawing (.backend error)

/-! ## Reports -/

/-- A part of the source, in bytes, with what is said about it. -/
structure Mark where
  text : String
  start : Nat
  length : Nat
deriving DecidableEq, Repr

/-- The kind of a failure in a report. -/
def code : Failure → String
  | .file _ => "trellis::io"
  | .outline _ => "trellis::parse"
  | .layout (.structural _) => "trellis::structural"
  | .layout (.inconsistent _) => "trellis::consistency"
  | .settings _ => "trellis::configuration"
  | .drawing _ => "trellis::export"

/-- What may help against a failure. -/
def help? : Failure → Option String
  | .outline error => error.help
  | .layout (.structural defect) =>
      defect.node?.map fun id => "check the construct with id `" ++ id ++ "`"
  | .layout (.inconsistent _) =>
      some ("this is a bug in the layout engine; " ++
        "please report it with the input file")
  | _ => none

/-- The part of the source that is at fault, where that is known. -/
def mark? : Failure → Option Mark
  | .outline error =>
      some ⟨error.label, error.span.start, error.span.length⟩
  | _ => none

end Failure

end Flowchart
