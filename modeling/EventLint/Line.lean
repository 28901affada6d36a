import EventLint.Text.Basic

/-!
# Lines

Lines end with a line feed. A carriage return right before it belongs to the line break.
-/

namespace EventLint

/-- The byte offsets at which the lines of a text start, in increasing order. -/
structure LineIndex where
  starts : List Nat
deriving Repr

namespace LineIndex

/-- Where the lines after the first start, in a text that stands at `offset`. -/
def startsFrom (offset : Nat) : Text → List Nat
  | [] => []
  | c :: cs =>
    let next := offset + c.utf8Size
    if c = '\n' then next :: startsFrom next cs else startsFrom next cs

def ofText (cs : Text) : LineIndex :=
  ⟨0 :: startsFrom 0 cs⟩

/-- The number of the line that holds `offset`, counted from 1. -/
def line (index : LineIndex) (offset : Nat) : Nat :=
  (index.starts.takeWhile (· ≤ offset)).length

def lineStart (index : LineIndex) (offset : Nat) : Nat :=
  (index.starts.takeWhile (· ≤ offset)).getLast?.getD 0

/-- The position of `offset` in its line, in bytes and counted from 1. -/
def column (index : LineIndex) (offset : Nat) : Nat :=
  offset - index.lineStart offset + 1

def lineCount (index : LineIndex) : Nat :=
  index.starts.length

end LineIndex

namespace Text

/-- The lines of a text of which `read` was read, last character first, since the last line
break. Text after the last line break counts if there is any. -/
def linesFrom (read : Text) : Text → List Text
  | [] => if read.isEmpty then [] else [read.reverse]
  | c :: cs =>
    if c = '\n' then
      (if read.head? = some '\r' then read.tail else read).reverse :: linesFrom [] cs
    else linesFrom (c :: read) cs

def lines (cs : Text) : List Text :=
  linesFrom [] cs

/-- The line break of a text: the first one in it, and a line feed if there is none. -/
def newline : Text → Text
  | [] => ['\n']
  | c :: cs =>
    if c = '\n' then ['\n']
    else if c = '\r' && cs.head? = some '\n' then ['\r', '\n']
    else newline cs

def isIndent (c : Char) : Bool :=
  c = ' ' || c = '\t'

/-- What stands between the last line break and the end of a text. -/
def lastLine (cs : Text) : Text :=
  (cs.reverse.takeWhile (· ≠ '\n')).reverse

/-- The indentation of the line that holds byte `offset`. -/
def indentAt (offset : Nat) (cs : Text) : Text :=
  let offset := min offset (byteSize cs)
  (lastLine (takeBytes offset cs) ++ dropBytes offset cs).takeWhile isIndent

end Text

end EventLint
