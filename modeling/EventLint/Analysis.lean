import EventLint.Diagnostic
import EventLint.FileTree

/-!
# Analysis of files

The diagnostics of many files, with the files that could not be read.
-/

namespace EventLint

inductive ReadError where
  | notFound
  | notText
deriving DecidableEq, Repr

def ReadError.message : ReadError → String
  | notFound => "Failed to read file: No such file or directory (os error 2)"
  | notText => "Failed to read file: stream did not contain valid UTF-8"

def FileTree.readText (tree : FileTree) (path : String) (working : List String) :
    Except ReadError Text :=
  match tree.read? path working with
  | some (.text text) => .ok text
  | some (.bytes _) => .error .notText
  | none => .error .notFound

structure FileError where
  file : String
  error : String
deriving DecidableEq, Repr

structure Analysis where
  diagnostics : List Diagnostic := []
  fileErrors : List FileError := []
  /-- The number of files, readable or not. -/
  files : Nat := 0
  /-- The number of lines in the readable ones. -/
  lines : Nat := 0
deriving DecidableEq, Repr

namespace Analysis

def append (a b : Analysis) : Analysis :=
  ⟨a.diagnostics ++ b.diagnostics, a.fileErrors ++ b.fileErrors, a.files + b.files,
    a.lines + b.lines⟩

def ofText (settings : Settings) (file : String) (text : Text) : Analysis :=
  let d := Document.ofText text
  { diagnostics := d.diagnostics settings file, files := 1, lines := d.lineIndex.lineCount }

def ofFile (settings : Settings) (tree : FileTree) (working : List String) (file : String) :
    Analysis :=
  match tree.readText file working with
  | .ok text => ofText settings file text
  | .error e => { fileErrors := [⟨file, e.message⟩], files := 1 }

def ofFiles (settings : Settings) (tree : FileTree) (working files : List String) : Analysis :=
  files.foldl (fun a file => a.append (ofFile settings tree working file)) {}

def count (a : Analysis) (rule : Rule) : Nat :=
  a.diagnostics.countP fun d => d.rule = rule

end Analysis

end EventLint
