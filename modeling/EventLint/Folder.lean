import EventLint.Text.Basic

/-!
# Excluded folders

Folders are excluded by name. A pattern is a name, or a star before an extension.
-/

namespace EventLint.Folder

/-- What is excluded unless it is asked for. -/
def defaults : List String :=
  [".git", ".vs", "bin", "node_modules", "obj", "packages"]

/-- The name fits the pattern: `*.ext` fits every name that ends in `.ext`. -/
def fits (name pattern : String) : Bool :=
  match pattern.toList with
  | '*' :: '.' :: extension => ('.' :: extension).isSuffixOf name.toList
  | _ => name = pattern

def isExcluded (name : String) (patterns : List String) : Bool :=
  patterns.any (fits name)

/-- The patterns in force: those asked for and the defaults, without those to include. -/
def patterns (exclude included : List String) : List String :=
  (exclude ++ defaults).filter fun p => !included.contains p

/-- Adds the folders that are not listed yet, in order. -/
def addNew (listed : List String) (folders : List String) : List String :=
  folders.foldl (fun l f => if l.contains f then l else l ++ [f]) listed

/-- The patterns as they are listed for the user, each once. -/
def listing (exclude : List String) (useDefaults : Bool) (included : List String) : List String :=
  (addNew (if useDefaults then defaults else []) exclude).filter fun p => !included.contains p

end EventLint.Folder
