import EventLint.Document
import EventLint.Edit

/-!
# Removing a modifier

A modifier is deleted with the blanks after it. At the end of a line the blanks before it go
instead, unless they are the indentation of the line.
-/

namespace EventLint

def Document.withEdits (d : Document) (edits : List Edit) : Except EditError Document :=
  (Edit.applyAll edits d.text).map Document.ofText

namespace Modifier

/-- The first modifier of kind `k` of a member. -/
def token? (member : Tree) (k : TokenKind) : Option Token :=
  (member.childNode? .modifierList).bind (·.childToken? k)

/-- How many blanks follow byte `offset` on its line. -/
def blanksAfter (source : Text) (offset : Nat) : Nat :=
  ((Text.dropBytes offset source).takeWhile Text.isIndent).length

/-- The edit that deletes a token with the blanks on one side of it. -/
def removal (source : Text) (t : Token) : Edit :=
  let trailing := blanksAfter source t.stop
  let line := Text.lastLine (Text.takeBytes t.start source)
  let before := (line.reverse.takeWhile Text.isIndent).length
  if 0 < trailing then .delete t.start (t.stop + trailing)
  else if 0 < before && before < Text.byteSize line then .delete (t.start - before) t.stop
  else .delete t.start t.stop

def removal? (d : Document) (member : Tree) (k : TokenKind) : Option Edit :=
  (token? member k).map (removal d.text)

end Modifier

end EventLint
