import Flowchart.Configuration.Document
import Flowchart.Pipeline

/-!
What the command does with the contents of its files: the configuration is
read and checked first, then the outline is read and drawn.
-/

namespace Flowchart.Command

/-- What was found at the place of the configuration. -/
inductive ConfigurationFile where
  /-- No file was named, and there is none at the usual places. -/
  | absent
  /-- The file that was named does not exist. -/
  | missing (path : String)
  | unreadable (reason : String)
  | present (text : String)
deriving DecidableEq, Repr

/-- What the system says of a file that does not exist. -/
def noSuchFile : String := "No such file or directory (os error 2)"

namespace ConfigurationFile

/-- The settings of a file, whose lists may go on after the last setting. -/
def settings : ConfigurationFile → Except Failure Settings
  | .absent => .ok .standard
  | .missing path => .error (.file ("Missing configuration file: " ++ path))
  | .unreadable reason => .error (.file reason)
  | .present text =>
      match (Configuration.read? text).bind (Settings.ofValue? .ignored) with
      | some settings => .ok settings
      | none => .error (.file "Failed to parse TOML configuration")

end ConfigurationFile

/-- The drawing of an outline. -/
def render (settings : Settings) (source : String) : Except Failure String := do
  let tree ← readOutline source
  settings.drawing (← settings.diagram tree)

/-- The drawing of an outline file, or of what reading it came to. -/
def run (configuration : ConfigurationFile) (source : Except String String) :
    Except Failure String := do
  let settings ← configuration.settings
  settings.validate.mapError .settings
  render settings (← source.mapError .file)

end Flowchart.Command
