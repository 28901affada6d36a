import EventLint.CommandLine.Run

/-!
# The command

Reads the part of the file system that a run can look at, runs, and writes the files that changed.
-/

namespace EventLint.Main

/-- The content of a file with this name matters to a run. -/
def matters (name : String) : Bool :=
  Path.isSource name || name ∈ [".ignore", ".gitignore", "exclude", Config.fileName]

/-- A folder to read. If it is not read whole, what its own folders hold is left out. -/
structure Goal where
  names : List String
  whole : Bool

/-- The goal as the folder of this name sees it. -/
def Goal.enter? (name : String) (g : Goal) : Option Goal :=
  match g.names with
  | [] => if g.whole then some g else none
  | n :: names => if n = name then some { g with names } else none

/-- The places that segments lead through. Only the last one is read whole. -/
def Goal.along (names : List String) : List Text → List Goal
  | [] => [⟨names, true⟩]
  | segment :: segments => ⟨names, false⟩ :: along (Path.step names segment) segments

/-- What a run with these paths looks at. -/
def goals (working : List String) (paths : List String) : List Goal :=
  (if paths.isEmpty then ["."] else paths).flatMap fun path =>
    Goal.along (if Path.isAbsolute path then [] else working) (Path.segments path)

/-- Reads an entry of a folder. What is neither a file nor a folder is left out. -/
partial def readEntry (goals : List Goal) (entry : IO.FS.DirEntry) : IO (Option Entry) := do
  let name := entry.fileName
  match (← entry.path.symlinkMetadata).type with
  | .dir =>
    -- the walk looks into the repository of every folder on its way
    let inner := (⟨[".git", "info"], true⟩ :: goals).filterMap (Goal.enter? name)
    let entries ← if inner.isEmpty then pure []
      else (← entry.path.readDir).toList.filterMapM (readEntry inner)
    return some (.folder name entries)
  | .file =>
    let bytes ← if matters name then IO.FS.readBinFile entry.path else pure .empty
    return some (.file name (.ofBytes bytes))
  | _ => return none

def paths (folder : String) : List Entry → List String
  | [] => []
  | .file name _ :: entries => Path.join folder name :: paths folder entries
  | .folder name inner :: entries => paths (Path.join folder name) inner ++ paths folder entries

def changed (before after : FileTree) : List (String × Content) :=
  (paths "/" after).filterMap fun path =>
    match after.read? path [] with
    | some content => if before.read? path [] = some content then none else some (path, content)
    | none => none

def writeContent (path : String) : Content → IO Unit
  | .text text => IO.FS.writeFile path (String.ofList text)
  | .bytes bytes => IO.FS.writeBinFile path (ByteArray.mk bytes.toArray)

end EventLint.Main

open EventLint in
def main (arguments : List String) : IO UInt32 := do
  let here := (← IO.currentDir).toString
  let working := (Path.segments here).foldl Path.step []
  let paths := match Arguments.read arguments with
    | .ok a => a.paths
    | .error _ => []
  let files ← (← (← IO.FS.realPath "/").readDir).toList.filterMapM
    (Main.readEntry (Main.goals working paths))
  let stdout ← IO.getStdout
  let response := run (← stdout.isTty) files arguments working
  for (path, content) in Main.changed files response.files do
    Main.writeContent path content
  stdout.putStr response.output
  if response.code = .usage then
    IO.eprintln "Usage: eventscan [OPTIONS] [PATHS]..."
  return response.code.toNat.toUInt32
