import EventLint.FileTree
import EventLint.Folder
import EventLint.Ignore.Rules

/-!
# Discovery

Which files to analyse: those named as roots, and those below a root, without what excluded folders
and ignored entries hold.
-/

namespace EventLint

structure Visit where
  files : List String := []
  folders : Nat := 0
deriving DecidableEq, Repr

def Visit.append (a b : Visit) : Visit :=
  ⟨a.files ++ b.files, a.folders + b.folders⟩

mutual

def Entry.visit (patterns : List String) (layers : List Ignore.Layer) (path : String) :
    Entry → Visit
  | .file n _ =>
    if Ignore.isIgnored layers n false then {}
    else if Path.isSource (Path.join path n) then { files := [Path.join path n] }
    else {}
  | .folder n entries =>
    if Ignore.isIgnored layers n true || Folder.isExcluded n patterns then {}
    else
      let inner := visitAll patterns (.ofFolder entries :: layers.map (·.enter n))
        (Path.join path n) entries
      { inner with folders := inner.folders + 1 }

def Entry.visitAll (patterns : List String) (layers : List Ignore.Layer) (path : String) :
    List Entry → Visit
  | [] => {}
  | e :: entries => (e.visit patterns layers path).append (visitAll patterns layers path entries)

end

namespace FileTree

/-- The layers of the folder at a place, the nearest first. -/
def layers (tree : FileTree) (above : List Ignore.Layer) : List String → List Ignore.Layer
  | [] => .ofFolder tree :: above
  | n :: names =>
    let inner := entriesOf (tree.find? fun e => e.name = n)
    layers inner ((Ignore.Layer.ofFolder tree :: above).map (·.enter n)) names

/-- The files to analyse at or below one root, sorted. -/
def collectAt (tree : FileTree) (exclude included : List String) (root : String)
    (working : List String := []) : Visit :=
  match tree.place? root working with
  | none => {}
  | some names =>
    match tree.at? names with
    | none => {}
    | some (.file _) => if Path.isSource root then { files := [root] } else {}
    | some (.folder entries) =>
      let visit := Entry.visitAll (Folder.patterns exclude included) (tree.layers [] names) root
        entries
      { visit with files := visit.files.mergeSort Path.le }

/-- The files to analyse at or below the roots, sorted, each path once. Without a root it is the
working folder. -/
def collect (tree : FileTree) (exclude included : List String) (roots : List String)
    (working : List String := []) : List String :=
  let starts := if roots.isEmpty then ["."] else roots
  Path.dropRepeats
    ((starts.flatMap fun r => (tree.collectAt exclude included r working).files).mergeSort Path.le)

end FileTree

end EventLint
