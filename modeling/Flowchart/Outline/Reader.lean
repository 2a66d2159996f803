import Flowchart.Outline.Error

/-!
Readers take a value from the front of a text.  A reader that does not find its
value either refuses, and another one may try from the start, or fails for
good.  Both ways tell where reading stopped and what was expected there.
-/

namespace Flowchart.Outline

inductive Outcome (β : Type) where
  | done (value : β) (rest : List Char)
  | refused (at_ : List Char) (expected : Option Expected)
  | failed (at_ : List Char) (expected : Option Expected)
deriving DecidableEq, Repr

/-- The same outcome with another value. -/
def Outcome.map {β γ : Type} (change : β → γ) : Outcome β → Outcome γ
  | .done value rest => .done (change value) rest
  | .refused place expected => .refused place expected
  | .failed place expected => .failed place expected

def Reader (β : Type) : Type := List Char → Outcome β

namespace Reader

variable {β γ : Type}

/-- Reads one value and then another; the text is not put back if the second
one is missing. -/
def andThen (reader : Reader β) (next : β → Reader γ) : Reader γ :=
  fun input =>
    match reader input with
    | .done value rest => next value rest
    | .refused place expected => .refused place expected
    | .failed place expected => .failed place expected

instance : Monad Reader where
  pure value := fun input => .done value input
  bind := andThen

/-- Gives up at once; nothing else is tried. -/
def stop : Reader β := fun input => .failed input none

/-- Says what is expected where the reader stops, unless that is known. -/
def expecting (expected : Expected) (reader : Reader β) : Reader β :=
  fun input =>
    match reader input with
    | .refused place known => .refused place (known.or (some expected))
    | .failed place known => .failed place (known.or (some expected))
    | done => done

/-- Makes every refusal final. -/
def required (reader : Reader β) : Reader β :=
  fun input =>
    match reader input with
    | .refused place expected => .failed place expected
    | other => other

/-- Tries a second reader from the start where the first one refuses. -/
def otherwise (first second : Reader β) : Reader β :=
  fun input =>
    match first input with
    | .refused _ _ => second input
    | other => other

/-- Reads nothing where the reader refuses. -/
def optional (reader : Reader β) : Reader (Option β) :=
  fun input =>
    match reader input with
    | .done value rest => .done (some value) rest
    | .refused _ _ => .done none input
    | .failed place expected => .failed place expected

/-- Reads values one after the other until the reader refuses.  A value that
takes nothing from the text is the last one. -/
def repeated (reader : Reader β) (input : List Char) : Outcome (List β) :=
  match reader input with
  | .done value rest =>
      if rest.length < input.length then
        match repeated reader rest with
        | .done values rest => .done (value :: values) rest
        | other => other
      else .done [value] rest
  | .refused _ _ => .done [] input
  | .failed place expected => .failed place expected
termination_by input.length

/-- Reads at least one value, with a separator between each and the next.  A
separator that no value follows is left in the text. -/
def separated (reader : Reader β) (separator : Reader Unit) :
    Reader (List β) := do
  let first ← reader
  let others ← repeated do
    separator
    reader
  return first :: others

/-! ## Characters -/

/-- Reads one character of a class. -/
def charWhere (accepted : Char → Bool) : Reader Char
  | [] => .refused [] none
  | first :: rest =>
      if accepted first then .done first rest
      else .refused (first :: rest) none

def char (expected : Char) : Reader Unit := do
  let _ ← charWhere (· = expected)

/-- Reads the longest run of characters of a class, which may be empty. -/
def run (accepted : Char → Bool) : Reader (List Char) :=
  fun input => .done (input.takeWhile accepted) (input.dropWhile accepted)

/-- Reads the longest run of characters of a class, at least one. -/
def nonemptyRun (accepted : Char → Bool) : Reader (List Char) :=
  fun input =>
    if (input.takeWhile accepted).isEmpty then .refused input none
    else .done (input.takeWhile accepted) (input.dropWhile accepted)

/-- Reads exactly this text. -/
def literal (expected : String) : Reader Unit :=
  fun input =>
    if expected.toList.isPrefixOf input then
      .done () (input.drop expected.length)
    else .refused input none

/-- Refuses before a character of a class and reads nothing. -/
def notBefore (refused : Char → Bool) : Reader Unit
  | [] => .done () []
  | first :: rest =>
      if refused first then .refused (first :: rest) none
      else .done () (first :: rest)

/-- Succeeds at the end of the text only. -/
def endOfText : Reader Unit
  | [] => .done () []
  | first :: rest => .refused (first :: rest) none

end Reader

end Flowchart.Outline
