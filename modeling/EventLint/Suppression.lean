import EventLint.Line
import EventLint.Text.Blank
import EventLint.Text.Word

/-!
# Suppression comments

A comment `// noqa` or `// eventscan-ignore` on a line suppresses what is found there: everything,
or the rules listed after a colon.
-/

namespace EventLint

inductive Suppression where
  | all
  /-- The rules with these ids, which are in upper case and differ from each other. -/
  | only (ids : List Text)
deriving DecidableEq, Repr

namespace Suppression

open Text

/-- The letter that two characters share if they differ in case only: the ASCII letter in lower
case, which the long s and the Kelvin sign have too. -/
def foldCase (c : Char) : Char :=
  if c = '\u017f' then 's' else if c = '\u212a' then 'k' else c.toLower

/-- What follows `word`, in any case, at the front of a text. -/
def afterWord? (word cs : Text) : Option Text :=
  match word, cs with
  | [], cs => some cs
  | _ :: _, [] => none
  | w :: ws, c :: cs => if foldCase c = w then afterWord? ws cs else none

def markers : List String :=
  ["eventscan-ignore", "noqa"]

/-- A character of an id, or of what separates ids. -/
def isListed (c : Char) : Bool :=
  let folded := foldCase c
  folded.isAlphanum || folded = '_' || folded = '-' || folded = ',' || isBlank c

def upperCase (c : Char) : Char :=
  if c = '\u017f' then 'S' else c.toUpper

/-- The ids of a list, without blanks around them and in upper case. -/
def idsOf (list : Text) : List Text :=
  (list.splitOn ',').map fun id => (trim id).map upperCase

/-- The ids that suppress every rule. -/
def isFamily (id : Text) : Bool :=
  id = "EVS".toList

def ofList (list : Text) : Suppression :=
  let ids := idsOf list
  if ids.any isFamily then .all
  else
    match (ids.filter fun id => !id.isEmpty).eraseDups with
    | [] => .all
    | ids => .only ids

/-- What follows one of `words` and is not part of a longer word. -/
def afterMarker? (words : List String) (cs : Text) : Option Text :=
  (words.findSome? fun word => afterWord? word.toList cs).filter fun rest =>
    !rest.head?.any isWord

/-- What a comment suppresses, from the text after its `//`. -/
def ofComment? (comment : Text) : Option Suppression :=
  (afterMarker? markers (trimStart comment)).map fun rest =>
    match rest with
    | ':' :: list => ofList (list.takeWhile isListed)
    | _ => .all

/-- What a line suppresses, by the first comment in it that suppresses anything. -/
def ofLine? : Text → Option Suppression
  | '/' :: '/' :: cs => (ofComment? cs).or (ofLine? ('/' :: cs))
  | _ :: cs => ofLine? cs
  | [] => none
termination_by cs => cs.length

/-- The line with this number, counted from 1, suppresses this. -/
abbrev Lines := List (Nat × Suppression)

def ofText (cs : Text) : Lines :=
  (lines cs).zipIdx.filterMap fun (line, i) => (ofLine? line).map fun s => (i + 1, s)

/-- What is found on the line by the rule with this id is suppressed. -/
def Lines.suppresses (suppressed : Lines) (line : Nat) (id : Text) : Bool :=
  match suppressed.lookup line with
  | some .all => true
  | some (.only ids) => ids.contains id
  | none => false

end Suppression

end EventLint
