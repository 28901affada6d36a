import EventLint.Text.Basic

/-!
# Paths

A path is a text whose segments stand between slashes. Two spellings with the same components are
the same path: empty segments do not count, and a `.` counts only where the path starts.
-/

namespace EventLint

inductive Component where
  /-- The slash that an absolute path starts with. -/
  | root
  /-- The `.` that a relative path may start with. -/
  | here
  /-- A `..`, which is kept: what it leaves may be no folder. -/
  | up
  | name (text : Text)
deriving DecidableEq, Repr

namespace Component

/-- Components of different sorts come in this order. -/
def rank : Component → Nat
  | root => 0
  | here => 1
  | up => 2
  | name _ => 3

/-- Names come in the order of their code points. -/
def before : Component → Component → Bool
  | name a, name b => a < b
  | a, b => a.rank < b.rank

/-- The component that a segment stands for, if it counts anywhere in a path. -/
def ofSegment? (segment : Text) : Option Component :=
  if segment = [] ∨ segment = ['.'] then none
  else if segment = ['.', '.'] then some up
  else some (name segment)

end Component

namespace Path

/-- What stands between the slashes. -/
def segments (path : String) : List Text :=
  path.toList.splitOn '/'

def isAbsolute (path : String) : Bool :=
  path.toList.head? = some '/'

def components (path : String) : List Component :=
  let start :=
    if isAbsolute path then [Component.root]
    else if (segments path).head? = some ['.'] then [Component.here]
    else []
  start ++ (segments path).filterMap Component.ofSegment?

def leAll : List Component → List Component → Bool
  | [], _ => true
  | _ :: _, [] => false
  | a :: as, b :: bs => if a = b then leAll as bs else a.before b

def le (a b : String) : Bool :=
  leAll (components a) (components b)

/-- Of neighbours with the same components the first remains. -/
def dropRepeats : List String → List String
  | [] => []
  | a :: rest =>
    match dropRepeats rest with
    | [] => [a]
    | b :: others => if components a = components b then a :: others else a :: b :: others

def join (path name : String) : String :=
  if path.toList = [] ∨ path.toList.getLast? = some '/' then path ++ name
  else path ++ "/" ++ name

/-- A segment that stands for no component when another one comes before it. -/
def isFiller (segment : Text) : Bool :=
  segment = [] || segment = ['.']

/-- The place that a segment leads to from the folder at a place. Nothing is above the root. -/
def step (names : List String) (segment : Text) : List String :=
  if isFiller segment then names
  else if segment = ['.', '.'] then names.dropLast
  else names ++ [String.ofList segment]

/-- The path without its last component. Nothing comes before the root and the empty path. -/
def parent? (path : String) : Option String :=
  match segments path with
  | [] => none
  | first :: rest =>
    match rest.reverse.dropWhile isFiller with
    | [] => if first = [] then none else some ""
    | _ :: more =>
      match (more.dropWhile isFiller).reverse with
      | [] => if first = [] then some "/" else some (String.ofList first)
      | others => some (String.ofList (['/'].intercalate (first :: others)))

/-- What follows the last dot of a name. A dot at the start makes no extension. -/
def extensionOf? (name : Text) : Option Text :=
  let after := name.reverse.takeWhile (· ≠ '.')
  match name.reverse.drop after.length with
  | [] => none
  | [_] => none
  | _ => some after.reverse

def extension? (path : String) : Option Text :=
  match (components path).getLast? with
  | some (.name n) => extensionOf? n
  | _ => none

def isSource (path : String) : Bool :=
  extension? path = some "cs".toList

/-- A text without the marks of extended-length paths that it starts with. -/
def dropDeviceMarks : Text → Text
  | '\\' :: '\\' :: '?' :: '\\' :: cs => dropDeviceMarks cs
  | cs => cs

/-- The path as it is shown: slashes lean forward, and a `./` at the start is left out. -/
def display (path : String) : String :=
  let slashed := (dropDeviceMarks path.toList).map fun c => if c = '\\' then '/' else c
  match slashed with
  | '.' :: '/' :: cs => String.ofList cs
  | cs => String.ofList cs

end Path

end EventLint
