/-!
The arguments of the command line.  An option takes its value from the same
word or from the next one; it is set only when the next word of another kind
comes, so that this is when its own mistakes are found.
-/

namespace Flowchart.Command

structure Arguments where
  input : String
  output : String
  configuration : Option String
  logLevel : String
deriving DecidableEq, Repr, Inhabited

/-- Why the arguments are not used. -/
inductive ArgumentsError where
  | missingInput
  | unknown
  | missingValue
  | unneededValue
  | repeated
  | helpAsked
  | versionAsked
deriving DecidableEq, Repr

namespace ArgumentsError

def name : ArgumentsError → String
  | .missingInput => "MissingRequiredArgument"
  | .unknown => "UnknownArgument"
  | .missingValue => "InvalidValue"
  | .unneededValue => "TooManyValues"
  | .repeated => "ArgumentConflict"
  | .helpAsked => "DisplayHelp"
  | .versionAsked => "DisplayVersion"

end ArgumentsError

inductive ValueOption where
  | output
  | configuration
  | logLevel
deriving DecidableEq, Repr, Inhabited

/-- What a name after one or two dashes stands for. -/
inductive Switch where
  | value (option : ValueOption)
  | help
  | version
deriving DecidableEq, Repr, Inhabited

namespace Switch

def ofLong? : String → Option Switch
  | "output" => some (.value .output)
  | "config" => some (.value .configuration)
  | "log-level" => some (.value .logLevel)
  | "help" => some .help
  | "version" => some .version
  | _ => none

def ofShort? : Char → Option Switch
  | 'o' => some (.value .output)
  | 'c' => some (.value .configuration)
  | 'h' => some .help
  | 'V' => some .version
  | _ => none

end Switch

/-- What a word is by its form alone. -/
inductive Word where
  /-- Two dashes: all words after are plain. -/
  | separator
  | long (name : String) (value : Option String)
  | short (name : Char) (value : Option String)
  | plain (text : String)
deriving DecidableEq, Repr

namespace Word

/-- The name before the first equals sign, and the value after it. -/
def splitValue (text : List Char) : String × Option String :=
  match text.dropWhile (· ≠ '=') with
  | [] => (String.ofList text, none)
  | _ :: value =>
      (String.ofList (text.takeWhile (· ≠ '=')), some (String.ofList value))

/-- The value that follows the name of a short option in the same word, with
or without an equals sign. -/
def attached? : List Char → Option String
  | [] => none
  | '=' :: value => some (String.ofList value)
  | value => some (String.ofList value)

def ofText (text : String) : Word :=
  match text.toList with
  | ['-', '-'] => .separator
  | '-' :: '-' :: rest =>
      let (name, value) := splitValue rest
      .long name value
  | '-' :: name :: rest => .short name (attached? rest)
  | _ => .plain text

end Word

/-- What was read so far.  An option whose value may still come is pending. -/
structure Scan where
  input : Option String
  values : List (ValueOption × String)
  pending : Option (ValueOption × Option String)
  onlyPlain : Bool
deriving DecidableEq, Repr, Inhabited

namespace Scan

def start : Scan := ⟨none, [], none, false⟩

/-- Sets an option, once. -/
def set (scan : Scan) (option : ValueOption) (value : String) :
    Except ArgumentsError Scan :=
  if (scan.values.lookup option).isSome then .error .repeated
  else .ok { scan with values := (option, value) :: scan.values }

/-- Sets the pending option, which must have its value now. -/
def settle (scan : Scan) : Except ArgumentsError Scan :=
  match scan.pending with
  | none => .ok scan
  | some (_, none) => .error .missingValue
  | some (option, some value) => { scan with pending := none }.set option value

def addSwitch (scan : Scan) (switch : Option Switch) (value : Option String) :
    Except ArgumentsError Scan :=
  match switch, value with
  | none, _ => .error .unknown
  | some (.value option), some value => do (← scan.settle).set option value
  | some (.value option), none => do
      return { ← scan.settle with pending := some (option, none) }
  | some .help, _ => do
      let _ ← scan.settle
      throw .helpAsked
  | some .version, _ => do
      let _ ← scan.settle
      throw .versionAsked

/-- The first plain word is the input, and there is no second one. -/
def addPlain (scan : Scan) (text : String) : Except ArgumentsError Scan :=
  if scan.input.isSome then .error .unknown
  else do return { ← scan.settle with input := some text }

/-- A long switch that takes no value must not be given one. -/
def addLong (scan : Scan) (name : String) (value : Option String) :
    Except ArgumentsError Scan :=
  match Switch.ofLong? name, value with
  | some .help, some _ | some .version, some _ => .error .unneededValue
  | switch, value => scan.addSwitch switch value

def add (scan : Scan) (text : String) : Except ArgumentsError Scan :=
  if scan.onlyPlain then scan.addPlain text
  else
    match Word.ofText text, scan.pending with
    | .separator, _ => .ok { scan with onlyPlain := true }
    | .long name value, _ => scan.addLong name value
    | .short name value, _ => scan.addSwitch (Switch.ofShort? name) value
    | .plain text, some (option, none) =>
        .ok { scan with pending := some (option, some text) }
    | .plain text, _ => scan.addPlain text

end Scan

namespace Arguments

def standardOutput : String := "out.svg"

def standardLogLevel : String := "info"

/-- Reads all words of the command line after the name of the program. -/
def read (words : List String) : Except ArgumentsError Arguments := do
  let scan ← (← words.foldlM Scan.add Scan.start).settle
  match scan.input with
  | none => throw .missingInput
  | some input =>
      return {
        input
        output := (scan.values.lookup .output).getD standardOutput
        configuration := scan.values.lookup .configuration
        logLevel := (scan.values.lookup .logLevel).getD standardLogLevel }

end Arguments

end Flowchart.Command
