import EventLint.Path

/-!
# File trees

The files and folders of a file system. A place in it is the list of names that leads there from
the root; a path is resolved to a place segment by segment, from the root if it is absolute and from
the working folder if not.
-/

namespace EventLint

inductive Content where
  | text (text : Text)
  /-- Bytes that are no UTF-8. -/
  | bytes (bytes : List UInt8)
deriving DecidableEq, Repr

def Content.ofBytes (bytes : ByteArray) : Content :=
  match String.fromUTF8? bytes with
  | some s => .text s.toList
  | none => .bytes bytes.toList

inductive Entry where
  | file (name : String) (content : Content)
  | folder (name : String) (entries : List Entry)
deriving Repr

def Entry.name : Entry → String
  | file n _ => n
  | folder n _ => n

/-- What a folder holds; the root, if nothing else is said. -/
abbrev FileTree := List Entry

namespace FileTree

inductive Found where
  | file (content : Content)
  | folder (entries : FileTree)

def at? (tree : FileTree) : List String → Option Found
  | [] => some (.folder tree)
  | n :: names =>
    match tree.find? fun e => e.name = n with
    | none => none
    | some (.folder _ entries) => at? entries names
    | some (.file _ content) => if names = [] then some (.file content) else none

/-- Changes the first entry of a name, or adds one. -/
def alter (name : String) (f : Option Entry → Entry) : FileTree → FileTree
  | [] => [f none]
  | e :: tree => if e.name = name then f (some e) :: tree else e :: alter name f tree

def entriesOf : Option Entry → FileTree
  | some (.folder _ entries) => entries
  | _ => []

def makeFolder (tree : FileTree) : List String → FileTree
  | [] => tree
  | n :: names => tree.alter n fun old => .folder n (makeFolder (entriesOf old) names)

/-- Writes a file, and makes the folders above it. -/
def write (tree : FileTree) (content : Content) : List String → FileTree
  | [] => tree
  | [n] => tree.alter n fun _ => .file n content
  | n :: names => tree.alter n fun old => .folder n (write (entriesOf old) content names)

/-- Follows one segment of a path from the folder at a place. -/
def follow (tree : FileTree) (names : List String) (segment : Text) : Option (List String) :=
  match tree.at? names with
  | some (.folder _) =>
    let next := Path.step names segment
    if (tree.at? next).isSome then some next else none
  | _ => none

/-- The place that a path leads to, seen from the working folder. -/
def place? (tree : FileTree) (path : String) (working : List String) : Option (List String) :=
  if path = "" then none
  else (Path.segments path).foldlM tree.follow (if Path.isAbsolute path then [] else working)

def holds (tree : FileTree) (path : String) (working : List String) : Bool :=
  (tree.place? path working).isSome

def lookup? (tree : FileTree) (path : String) (working : List String) : Option Found :=
  (tree.place? path working).bind tree.at?

def read? (tree : FileTree) (path : String) (working : List String) : Option Content :=
  match tree.lookup? path working with
  | some (.file content) => some content
  | _ => none

def isFile (tree : FileTree) (path : String) (working : List String) : Bool :=
  (tree.read? path working).isSome

def replace (tree : FileTree) (path : String) (content : Content) (working : List String) :
    FileTree :=
  match tree.place? path working with
  | some names => tree.write content names
  | none => tree

end FileTree

end EventLint
