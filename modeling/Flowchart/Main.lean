import Flowchart.Command.Arguments
import Flowchart.Command.Run

/-!
The command itself: finds and reads the files, and writes the drawing.
-/

namespace Flowchart.Command

def usage : String :=
  "Usage: trellis [OPTIONS] <INPUT>\n\n" ++
    "Arguments:\n" ++
    "  <INPUT>  Path to the input file\n\n" ++
    "Options:\n" ++
    "  -o, --output <OUTPUT>        Path to the output SVG file " ++
    "[default: out.svg]\n" ++
    "  -c, --config <CONFIG>        Path to configuration file (TOML)\n" ++
    "      --log-level <LOG_LEVEL>  Log level (off, error, warn, info, debug, " ++
    "trace) [default: info]\n" ++
    "  -h, --help                   Print help\n" ++
    "  -V, --version                Print version"

def versionText : String := "trellis 0.1.0"

def logLevels : List String :=
  ["off", "error", "warn", "info", "debug", "trace"]

/-! ## Files -/

/-- The text of a file, or why it cannot be read. -/
def readText (path : String) : IO (Except String String) := do
  try
    return .ok (← IO.FS.readFile path)
  catch
    | .noFileOrDirectory _ _ _ => return .error noSuchFile
    | problem => return .error problem.toString

def fileExists (path : String) : IO Bool := do
  return (← (System.mkFilePath [path]).pathExists)

def readConfiguration (path : String) : IO ConfigurationFile := do
  match ← readText path with
  | .ok text => return .present text
  | .error reason => return .unreadable reason

/-- The places where a configuration is looked for if none is named: below
the working directory, then in the folder for the settings of all programs. -/
def usualPlaces : IO (List String) := do
  let folder ← IO.getEnv "XDG_CONFIG_HOME"
  let home ← IO.getEnv "HOME"
  let folder := (folder.filter fun folder => folder.startsWith "/").or
    (home.map fun home => home ++ "/.config")
  return "trellis/config.toml" ::
    folder.toList.map fun folder => folder ++ "/trellis/config.toml"

/-- The first configuration that exists at one of the places. -/
def firstConfiguration : List String → IO ConfigurationFile
  | [] => return .absent
  | path :: rest => do
      if ← fileExists path then readConfiguration path
      else firstConfiguration rest

def findConfiguration (named : Option String) : IO ConfigurationFile := do
  match named with
  | some path =>
      if ← fileExists path then readConfiguration path
      else return .missing path
  | none => firstConfiguration (← usualPlaces)

/-! ## Runs -/

def report (failure : Failure) : IO Unit := do
  IO.eprintln (failure.code ++ ": " ++ failure.message)
  if let some mark := failure.mark? then
    IO.eprintln
      ("  at " ++ toString mark.start ++ "+" ++ toString mark.length ++ ": " ++
        mark.text)
  if let some help := failure.help? then
    IO.eprintln ("  help: " ++ help)

/-- Writes a drawing to a file, and tells what went wrong if it is not there in
the end. -/
def finish (output : String) (result : Except Failure String) : IO UInt32 := do
  match result with
  | .ok drawing =>
      try
        IO.FS.writeFile output drawing
        return 0
      catch problem =>
        report (.file problem.toString)
        return 1
  | .error failure =>
      report failure
      return 1

def runArguments (arguments : Arguments) : IO UInt32 := do
  unless logLevels.contains arguments.logLevel.toLower do
    IO.eprintln
      ("Invalid log level: " ++ arguments.logLevel ++ ". Using 'warn' instead.")
  let configuration ← findConfiguration arguments.configuration
  let source ← readText arguments.input
  finish arguments.output (run configuration source)

def start (words : List String) : IO UInt32 := do
  match Arguments.read words with
  | .ok arguments => runArguments arguments
  | .error .helpAsked =>
      IO.println usage
      return 0
  | .error .versionAsked =>
      IO.println versionText
      return 0
  | .error error =>
      IO.eprintln ("error: " ++ error.name)
      IO.eprintln usage
      return 2

end Flowchart.Command

def main (words : List String) : IO UInt32 := Flowchart.Command.start words
