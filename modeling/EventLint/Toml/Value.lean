import EventLint.Text.Basic

/-!
# Values of TOML

Tables are filled key by key. How a table came to be decides who may still add to it.
-/

namespace EventLint.Toml

inductive Origin where
  /-- By a header of its own. -/
  | header
  /-- By a header of a table inside it. -/
  | passed
  /-- By a dotted key. -/
  | dotted
  /-- Between braces. -/
  | inline
deriving DecidableEq, Repr

inductive Value where
  | string (text : Text)
  | boolean (value : Bool)
  /-- A number, a date or a time. -/
  | scalar
  | array (items : List Value)
  | table (origin : Origin) (entries : List (Text × Value))
  /-- Tables of one name, each with a header of its own. -/
  | rows (tables : List (List (Text × Value)))

abbrev Entries := List (Text × Value)

namespace Entries

def get? (entries : Entries) (key : Text) : Option Value :=
  (entries.find? fun e => e.1 = key).map Prod.snd

/-- Replaces the value of a key, or adds the key at the end. -/
def set (key : Text) (value : Value) : Entries → Entries
  | [] => [(key, value)]
  | e :: entries => if e.1 = key then (key, value) :: entries else e :: set key value entries

/-- Gives a value to a dotted key. The tables on the way must come from dotted keys or from headers
of tables inside them, and the last part of the key must be new. -/
def assign (entries : Entries) (value : Value) : List Text → Option Entries
  | [] => none
  | [k] => if (entries.get? k).isSome then none else some (entries.set k value)
  | k :: path =>
    match entries.get? k with
    | none => (assign [] value path).map fun inner => entries.set k (.table .dotted inner)
    | some (.table origin inner) =>
      if origin = .passed ∨ origin = .dotted then
        (assign inner value path).map fun inner' => entries.set k (.table origin inner')
      else none
    | some _ => none

def assignAll (entries : Entries) (pairs : List (List Text × Value)) : Option Entries :=
  pairs.foldlM (fun entries pair => entries.assign pair.2 pair.1) entries

/-- Adds the table under a header, which holds these pairs. A table that was passed before is
filled, every other one must be new. -/
def addTable (entries : Entries) (key : Text) (pairs : List (List Text × Value)) :
    Option Entries :=
  match entries.get? key with
  | none => (assignAll [] pairs).map fun inner => entries.set key (.table .header inner)
  | some (.table .passed inner) =>
    (assignAll inner pairs).map fun inner' => entries.set key (.table .header inner')
  | some _ => none

def addRow (entries : Entries) (key : Text) (pairs : List (List Text × Value)) :
    Option Entries :=
  match entries.get? key with
  | none => (assignAll [] pairs).map fun inner => entries.set key (.rows [inner])
  | some (.rows tables) =>
    (assignAll [] pairs).map fun inner => entries.set key (.rows (tables ++ [inner]))
  | some _ => none

/-- Adds what stands under a header. Of tables of one name the last is entered, and tables that do
not exist are made. -/
def addSection (entries : Entries) (isRow : Bool) (pairs : List (List Text × Value)) :
    List Text → Option Entries
  | [] => none
  | [k] => if isRow then entries.addRow k pairs else entries.addTable k pairs
  | k :: path =>
    match entries.get? k with
    | none => (addSection [] isRow pairs path).map fun inner => entries.set k (.table .passed inner)
    | some (.table origin inner) =>
      if origin = .inline then none
      else (addSection inner isRow pairs path).map fun inner' =>
        entries.set k (.table origin inner')
    | some (.rows tables) =>
      match tables.getLast? with
      | none => none
      | some inner =>
        (addSection inner isRow pairs path).map fun inner' =>
          entries.set k (.rows (tables.dropLast ++ [inner']))
    | some _ => none

end Entries

end EventLint.Toml
