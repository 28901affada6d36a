import EventLint.Token.Basic

/-!
# Edits

A batch of edits replaces ranges of bytes of a text. The batch is refused if a range lies outside
the text, cuts through a character, or overlaps another range.
-/

namespace EventLint

/-- Puts `replacement` in place of the bytes from `start` to `stop`. -/
structure Edit where
  start : Nat
  stop : Nat
  replacement : Text
deriving DecidableEq, Repr

/-- Why a batch of edits is refused. Edits are counted from 0. -/
inductive EditError where
  | overlapping (first second : Nat)
  | outOfBounds (index start stop length : Nat)
  | notCharBoundary (index offset : Nat)
  /-- An edit cuts through a character of what an edit at the same place has put in. -/
  | tornReplacement (start stop : Nat)
deriving DecidableEq, Repr

def EditError.message : EditError → String
  | overlapping a b => s!"overlapping edits at indices {a} and {b}"
  | outOfBounds i start stop length =>
    s!"edit {i} out of bounds: {start}..{stop} in source of length {length}"
  | notCharBoundary i offset => s!"edit {i} does not fall on a char boundary at byte {offset}"
  | tornReplacement start stop => s!"no text between bytes {start} and {stop}"

namespace Edit

def insert (position : Nat) (content : Text) : Edit :=
  ⟨position, position, content⟩

def delete (start stop : Nat) : Edit :=
  ⟨start, stop, []⟩

def replace (s : Span) (replacement : Text) : Edit :=
  ⟨s.start, s.stop, replacement⟩

/-- The ranges share a byte, or one is empty and lies inside the other. -/
def overlaps (a b : Edit) : Bool :=
  a.start < b.stop && b.start < a.stop

/-- Byte `offset` lies between two characters or at an end of the text. -/
def isBoundary (source : Text) (offset : Nat) : Bool :=
  (Text.splitAtByte offset source).isSome

def fault? (source : Text) (index : Nat) (e : Edit) : Option EditError :=
  if e.stop < e.start ∨ Text.byteSize source < e.stop then
    some (.outOfBounds index e.start e.stop (Text.byteSize source))
  else if !isBoundary source e.start then some (.notCharBoundary index e.start)
  else if !isBoundary source e.stop then some (.notCharBoundary index e.stop)
  else none

/-- The first two edits that overlap, by the first of them; `index` counts the edits before. -/
def overlap? (index : Nat) : List Edit → Option EditError
  | [] => none
  | e :: es =>
    match es.findIdx? e.overlaps with
    | some n => some (.overlapping index (index + 1 + n))
    | none => overlap? (index + 1) es

/-- What is wrong with a batch: faults of single edits come before overlaps. -/
def batchFault? (source : Text) (edits : List Edit) : Option EditError :=
  (edits.zipIdx.findSome? fun (e, i) => fault? source i e).or (overlap? 0 edits)

def splice (e : Edit) (source : Text) : Except EditError Text :=
  match Text.splitAtByte e.start source, Text.splitAtByte e.stop source with
  | some (before, _), some (_, after) => .ok (before ++ e.replacement ++ after)
  | _, _ => .error (.tornReplacement e.start e.stop)

/-- Performs a batch of edits, from the last place in the text to the first. Of edits at the same
place the one that was queued last is performed first. -/
def applyAll (edits : List Edit) (source : Text) : Except EditError Text :=
  match batchFault? source edits with
  | some e => .error e
  | none => (edits.mergeSort fun a b => a.start ≤ b.start).foldrM splice source

end Edit

end EventLint
