import EventLint.FileTree
import EventLint.Ignore.Glob
import EventLint.Line
import EventLint.Text.Blank

/-!
# Ignore files

A folder may list patterns of files and folders to pass over, in `.ignore` and, within a
repository, in `.gitignore` and `.git/info/exclude`. Of the patterns of one file the last that fits
decides, of the files of one sort that in the nearest folder.
-/

namespace EventLint.Ignore

structure Pattern where
  glob : List Glob.Plain
  /-- What fits is visited after all. -/
  restores : Bool
  foldersOnly : Bool
deriving Repr

/-- Reads the pattern after its marks: a slash at the start or inside ties it to the folder of its
file, a slash at the end to folders. -/
def Pattern.ofMarked? (restores tied : Bool) (line : Text) : Option Pattern := do
  let foldersOnly := line.getLast? = some '/'
  let body :=
    if foldersOnly then
      let cut := line.dropLast
      if cut.getLast? = some '\\' then cut.dropLast else cut
    else line
  let free := !tied && !body.contains '/' && body ≠ ['*', '*']
  let placed := if free then ['*', '*', '/'] ++ body else body
  let full :=
    if ['/', '*', '*'].isSuffixOf placed then placed ++ ['/', '*'] else placed
  return ⟨← Glob.read? full, restores, foldersOnly⟩

/-- The pattern of a line. Empty lines, comments and unreadable patterns have none. -/
def Pattern.ofLine? (line : Text) : Option Pattern :=
  if line.head? = some '#' then none
  else
    let trimmed := if ['\\', ' '].isSuffixOf line then line else Text.trimEnd line
    match trimmed with
    | [] => none
    | '\\' :: '!' :: cs => ofMarked? false false ('!' :: cs)
    | '\\' :: '#' :: cs => ofMarked? false false ('#' :: cs)
    | '!' :: '/' :: cs => ofMarked? true true cs
    | '!' :: cs => ofMarked? true false cs
    | '/' :: cs => ofMarked? false true cs
    | cs => ofMarked? false false cs

abbrev Patterns := List Pattern

def Patterns.ofText (text : Text) : Patterns :=
  let body := match text with
    | '\uFEFF' :: cs => cs
    | cs => cs
  (Text.lines body).filterMap Pattern.ofLine?

def Patterns.ofFile (entries : FileTree) (names : List String) : Patterns :=
  match entries.at? names with
  | some (.file (.text text)) => ofText text
  | _ => []

inductive Verdict where
  | passOver
  | visit
deriving DecidableEq, Repr

def Patterns.verdict? (patterns : Patterns) (path : List UInt8) (isFolder : Bool) :
    Option Verdict :=
  (patterns.reverse.find? fun p => (!p.foldersOnly || isFolder) && Glob.fits p.glob path).map
    fun p => if p.restores then .visit else .passOver

structure Layer where
  general : Patterns
  repository : Patterns
  personal : Patterns
  /-- A repository starts here. -/
  isRepository : Bool
  /-- The folders between this one and the entry. -/
  below : List String := []

def Layer.ofFolder (entries : FileTree) : Layer where
  general := .ofFile entries [".ignore"]
  repository := .ofFile entries [".gitignore"]
  personal := .ofFile entries [".git", "info", "exclude"]
  isRepository := (entries.at? [".git"]).isSome

def Layer.enter (name : String) (l : Layer) : Layer :=
  { l with below := l.below ++ [name] }

/-- The path of an entry as the patterns of the layer see it. -/
def Layer.path (l : Layer) (name : String) : List UInt8 :=
  (String.intercalate "/" (l.below ++ [name])).toUTF8.toList

/-- The layers up to the folder in which the nearest repository starts. -/
def withinRepository : List Layer → List Layer
  | [] => []
  | l :: layers => if l.isRepository then [l] else l :: withinRepository layers

/-- An entry is passed over, seen from its folder, the nearest layer first. -/
def isIgnored (layers : List Layer) (name : String) (isFolder : Bool) : Bool :=
  let general := layers.findSome? fun l => l.general.verdict? (l.path name) isFolder
  let inner := if layers.any Layer.isRepository then withinRepository layers else []
  let repository := inner.findSome? fun l => l.repository.verdict? (l.path name) isFolder
  let excluded := inner.findSome? fun l => l.personal.verdict? (l.path name) isFolder
  ((general.or repository).or excluded) = some .passOver

end EventLint.Ignore
