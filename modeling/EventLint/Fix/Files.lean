import EventLint.Analysis
import EventLint.Fix.All

/-!
# Fixing files

One kind of fix for many files, one after the other. A dry run reports the same and writes nothing.
-/

namespace EventLint

structure FixReport where
  applied : List AppliedFix := []
  skipped : List SkippedFix := []
  filesChanged : List String := []
  fileErrors : List FileError := []
  dryRun : Bool := false
deriving DecidableEq, Repr

namespace FixReport

/-- Adds what happened to the text of one file. A file counts as changed if a fix was applied. -/
def add (r : FixReport) (file : String) (outcome : FixOutcome) : FixReport :=
  let skipped := r.skipped ++ outcome.skipped
  if outcome.applied.isEmpty then { r with skipped }
  else
    { r with
      skipped
      applied := r.applied ++ outcome.applied
      filesChanged := r.filesChanged ++ [file] }

def addError (r : FixReport) (file : String) (e : ReadError) : FixReport :=
  { r with fileErrors := r.fileErrors ++ [⟨file, e.message⟩] }

end FixReport

/-- Fixes one file. The file is written if a fix was applied, unless the run is dry. -/
def fixFile (settings : Settings) (kind : FixKind) (working : List String)
    (state : FixReport × FileTree) (file : String) : FixReport × FileTree :=
  let (report, tree) := state
  match tree.readText file working with
  | .error e => (report.addError file e, tree)
  | .ok text =>
    let outcome := fixText settings file kind text
    let written :=
      if outcome.applied.isEmpty || report.dryRun then tree
      else tree.replace file (.text outcome.text) working
    (report.add file outcome, written)

def fixFiles (settings : Settings) (kind : FixKind) (dryRun : Bool) (tree : FileTree)
    (working files : List String) : FixReport × FileTree :=
  files.foldl (fixFile settings kind working) ({ dryRun }, tree)

end EventLint
