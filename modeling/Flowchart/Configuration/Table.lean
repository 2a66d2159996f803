import Flowchart.Settings.Value

/-!
Tables under construction.  Where a table comes from decides who may still add
to it: a header opens a table once, dotted keys add to tables that no header
opened, after which no header opens them, and what stands in brackets is
closed.
-/

namespace Flowchart.Configuration

open Settings (Value)

/-- What brought a table about. -/
inductive Origin where
  /-- A header of its own, or the beginning of the file. -/
  | header
  /-- The header of a table inside it. -/
  | implied
  /-- Dotted keys, which may have taken over an implied table. -/
  | dotted
deriving DecidableEq, Repr, Inhabited

inductive Entry where
  | value (value : Value)
  | table (origin : Origin) (entries : List (String × Entry))
  /-- A list of tables, each opened by a header in double brackets. -/
  | tables (elements : List (List (String × Entry)))
deriving Inhabited

abbrev Entries : Type := List (String × Entry)

namespace Entries

/-- Puts another entry under a key, made from the one that is there. -/
def alter (key : String) (change : Option Entry → Option Entry)
    (entries : Entries) : Option Entries :=
  (change (entries.lookup key)).map fun entry =>
    (key, entry) :: entries.filter fun other => other.1 ≠ key

/-- Changes the last table of a list of tables. -/
def alterLast (change : Entries → Option Entries)
    (elements : List Entries) : Option Entry :=
  match elements.getLast? with
  | some last =>
      (change last).map fun last => .tables (elements.dropLast ++ [last])
  | none => none

/-- Changes the table at a path of keys.  Tables that are missing on the way
are made; dotted keys do not pass through tables that have a header. -/
def within (isDotted : Bool) (change : Origin → Entries → Option Entries) :
    List String → Origin → Entries → Option Entries
  | [], origin, entries => change origin entries
  | key :: path, _, entries =>
      entries.alter key fun found =>
        match found with
        | none =>
            let origin := if isDotted then .dotted else .implied
            (within isDotted change path origin []).map (.table origin)
        | some (.table origin inner) =>
            if isDotted && origin = .header then none
            else
              let origin := if isDotted then .dotted else origin
              (within isDotted change path origin inner).map (.table origin)
        | some (.tables elements) =>
            alterLast (within isDotted change path .header) elements
        | some (.value _) => none

/-- Opens the table of a header.  It may have been implied before. -/
def openTable (path : List String) (key : String) (entries : Entries) :
    Option Entries :=
  let opened (_ : Origin) (outer : Entries) : Option Entries :=
    outer.alter key fun found =>
      match found with
      | none => some (.table .header [])
      | some (.table .implied inner) => some (.table .header inner)
      | _ => none
  within false opened path .header entries

/-- Opens one more table of the list that a header in double brackets
names. -/
def openElement (path : List String) (key : String) (entries : Entries) :
    Option Entries :=
  let opened (_ : Origin) (outer : Entries) : Option Entries :=
    outer.alter key fun found =>
      match found with
      | none => some (.tables [[]])
      | some (.tables elements) => some (.tables (elements ++ [[]]))
      | _ => none
  within false opened path .header entries

/-- Sets a value.  No key is set twice, and dotted keys end in a table of
theirs. -/
def set (path : List String) (key : String) (value : Value)
    (entries : Entries) : Option Entries :=
  let added (origin : Origin) (inner : Entries) : Option Entries :=
    if (origin = .dotted) ↔ path ≠ [] then
      inner.alter key fun found =>
        match found with
        | none => some (.value value)
        | some _ => none
    else none
  within true added path .header entries

/-- Sets a value in the table at a path of headers. -/
def setIn (header path : List String) (key : String) (value : Value)
    (entries : Entries) : Option Entries :=
  within false (fun _ => set path key value) header .header entries

end Entries

/-! ## Finished tables -/

mutual

def Entry.finish : Entry → Value
  | .value value => value
  | .table _ entries => .table (finishAll entries)
  | .tables elements => .list (finishEach elements)

def finishAll : List (String × Entry) → List (String × Value)
  | [] => []
  | (key, entry) :: rest => (key, entry.finish) :: finishAll rest

def finishEach : List (List (String × Entry)) → List Value
  | [] => []
  | entries :: rest => .table (finishAll entries) :: finishEach rest

end

end Flowchart.Configuration
