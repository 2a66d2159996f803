import Flowchart.Color.Reading
import Flowchart.Settings.Layout

/-!
All settings of the program together.
-/

namespace Flowchart

/-- The colours of a drawing, as they are written. -/
structure StyleSettings where
  backgroundColor : Option String
  lineColor : Option String
deriving DecidableEq, Repr, Inhabited

structure Settings where
  layout : LayoutSettings Float32
  style : StyleSettings
  zoom : ZoomSettings Float32
deriving Repr, Inhabited

namespace StyleSettings

def standard : StyleSettings := ⟨none, none⟩

/-- Reads one of the colours, if it is given. -/
def readColor (name : String) (written : Option String) :
    Except (SettingsError Float32) (Option Color) :=
  match written with
  | none => .ok none
  | some text =>
      match Color.read text with
      | .ok color => .ok (some color)
      | .error reason => .error (.color name reason)

def background (style : StyleSettings) :
    Except (SettingsError Float32) (Option Color) :=
  readColor "background_color" style.backgroundColor

def line (style : StyleSettings) :
    Except (SettingsError Float32) (Option Color) :=
  readColor "line_color" style.lineColor

def validate (style : StyleSettings) : Except (SettingsError Float32) Unit := do
  let _ ← style.background
  let _ ← style.line

end StyleSettings

namespace Settings

def standard : Settings := ⟨.standard, .standard, .standard⟩

def validate (settings : Settings) : Except (SettingsError Float32) Unit := do
  settings.layout.validate
  settings.style.validate
  settings.zoom.validate

end Settings

end Flowchart
