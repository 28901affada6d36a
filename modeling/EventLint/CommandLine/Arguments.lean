import EventLint.Fix.Action

/-!
# Command line arguments

Arguments are read from left to right, and the first fault, or the first call for help, decides. A
value that follows its option is checked when the next argument is taken, so an argument that means
nothing is found first.
-/

namespace EventLint

structure Arguments where
  paths : List String := []
  json : Bool := false
  verbose : Bool := false
  quiet : Bool := false
  failOnFindings : Bool := false
  fix : Option FixKind := none
  dryRun : Bool := false
  excludeFolders : List String := []
  includeFolders : List String := []
  listRules : Bool := false
deriving DecidableEq, Repr

namespace Arguments

inductive UsageError where
  | unknownArgument
  /-- A value is missing or has no meaning. -/
  | invalidValue
  /-- Something is given twice that can be given once. -/
  | argumentConflict
  /-- An argument is given without the one it needs. -/
  | missingRequiredArgument
  /-- A value is given to what takes none. -/
  | tooManyValues
deriving DecidableEq, Repr

/-- Why there are no arguments to run with. -/
inductive Stop where
  | help (long : Bool)
  | version
  | refused (error : UsageError)
deriving DecidableEq, Repr

inductive Flag where
  | json
  | verbose
  | quiet
  | failOnFindings
  | dryRun
  | listRules
deriving DecidableEq, Repr

inductive Valued where
  | fix
  | excludeFolders
  | includeFolders
deriving DecidableEq, Repr

inductive Switch where
  | flag (flag : Flag)
  | valued (option : Valued)
  | help
  | version
deriving DecidableEq, Repr

/-- The names after two dashes. -/
def longNames : List (String × Switch) :=
  [("json", .flag .json), ("verbose", .flag .verbose), ("quiet", .flag .quiet),
    ("fail-on-findings", .flag .failOnFindings), ("fix", .valued .fix),
    ("dry-run", .flag .dryRun), ("exclude-folders", .valued .excludeFolders),
    ("exclude-folder", .valued .excludeFolders), ("include-folders", .valued .includeFolders),
    ("include-folder", .valued .includeFolders), ("list-rules", .flag .listRules),
    ("help", .help), ("version", .version)]

/-- The letters after one dash. -/
def letters : List (Char × Switch) :=
  [('v', .flag .verbose), ('q', .flag .quiet), ('h', .help), ('V', .version)]

/-- What was read last and is not checked yet. -/
inductive Pending where
  | nothing
  | option (option : Valued) (value : Option String)
  | paths (paths : List String)
deriving DecidableEq, Repr

structure Reading where
  result : Arguments := {}
  pending : Pending := .nothing
  /-- All that follows is a path. -/
  pathsOnly : Bool := false
deriving DecidableEq, Repr

namespace Reading

/-- Gives an option its value. A fix is chosen once. -/
def store (r : Reading) (option : Valued) (value : String) : Except Stop Reading :=
  match option with
  | .excludeFolders =>
    .ok { r with result.excludeFolders := r.result.excludeFolders ++ [value] }
  | .includeFolders =>
    .ok { r with result.includeFolders := r.result.includeFolders ++ [value] }
  | .fix =>
    if r.result.fix.isSome then .error (.refused .argumentConflict)
    else
      match FixKind.ofName? value with
      | some kind => .ok { r with result.fix := some kind }
      | none => .error (.refused .invalidValue)

/-- Checks what is pending. No path is empty. -/
def settle (r : Reading) : Except Stop Reading :=
  let settled := { r with pending := .nothing }
  match r.pending with
  | .nothing => .ok settled
  | .option _ none => .error (.refused .invalidValue)
  | .option option (some value) => settled.store option value
  | .paths paths =>
    if paths.contains "" then .error (.refused .invalidValue)
    else .ok { settled with result.paths := r.result.paths ++ paths }

def isOn (a : Arguments) : Flag → Bool
  | .json => a.json
  | .verbose => a.verbose
  | .quiet => a.quiet
  | .failOnFindings => a.failOnFindings
  | .dryRun => a.dryRun
  | .listRules => a.listRules

def turnOn (a : Arguments) : Flag → Arguments
  | .json => { a with json := true }
  | .verbose => { a with verbose := true }
  | .quiet => { a with quiet := true }
  | .failOnFindings => { a with failOnFindings := true }
  | .dryRun => { a with dryRun := true }
  | .listRules => { a with listRules := true }

def take (r : Reading) (long : Bool) (switch : Switch) : Except Stop Reading := do
  let settled ← r.settle
  match switch with
  | .help => .error (.help long)
  | .version => .error .version
  | .valued option => .ok { settled with pending := .option option none }
  | .flag flag =>
    if isOn settled.result flag then .error (.refused .argumentConflict)
    else .ok { settled with result := turnOn settled.result flag }

/-- Takes an argument that starts with two dashes; its value may follow an equals sign. -/
def takeLong (r : Reading) (body : Text) : Except Stop Reading :=
  let name := body.takeWhile (· ≠ '=')
  match (longNames.find? fun n => n.1.toList = name).map Prod.snd, body.drop name.length with
  | none, _ => .error (.refused .unknownArgument)
  | some switch, [] => r.take true switch
  | some (.valued option), _ :: value => do
    let settled ← r.settle
    settled.store option (String.ofList value)
  | some _, _ :: _ => .error (.refused .tooManyValues)

def takeLetter (r : Reading) (c : Char) : Except Stop Reading :=
  match (letters.find? fun l => l.1 = c).map Prod.snd with
  | none => .error (.refused .unknownArgument)
  | some switch => r.take false switch

def takePath (r : Reading) (path : String) : Except Stop Reading :=
  match r.pending with
  | .paths paths => .ok { r with pending := .paths (paths ++ [path]) }
  | _ => do
    let settled ← r.settle
    return { settled with pending := .paths [path] }

def step (r : Reading) (argument : String) : Except Stop Reading :=
  if r.pathsOnly then r.takePath argument
  else
    match argument.toList, r.pending with
    | ['-', '-'], _ => .ok { r with pathsOnly := true }
    | '-' :: '-' :: body, _ => r.takeLong body
    | '-' :: c :: cs, _ => (c :: cs).foldlM takeLetter r
    | _, .option option none => .ok { r with pending := .option option (some argument) }
    | _, _ => r.takePath argument

end Reading

/-- Reads the arguments of a run. A dry run needs a fix. -/
def read (arguments : List String) : Except Stop Arguments := do
  let last ← arguments.foldlM Reading.step {}
  let settled ← last.settle
  if settled.result.dryRun ∧ settled.result.fix = none then
    .error (.refused .missingRequiredArgument)
  else return settled.result

end Arguments

end EventLint
