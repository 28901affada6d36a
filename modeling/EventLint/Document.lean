import EventLint.Line
import EventLint.Token.Scan
import EventLint.Tree.Declaration

/-!
# Documents

A document is a source text with its tree, in which nodes are found by byte offset.
-/

namespace EventLint

structure Document where
  text : Text
  root : Tree
deriving Repr

namespace Document

/-- Reads a source text. Every text has a tree: what is not understood is kept as it is. -/
def ofText (text : Text) : Document :=
  ⟨text, Tree.ofTokens (Token.scan text)⟩

@[simp] theorem text_ofText (text : Text) : (ofText text).text = text := rfl

/-- The byte offset of the end of the text. -/
def eof (d : Document) : Nat :=
  Text.byteSize d.text

def spanOf (d : Document) (t : Tree) : Span :=
  t.span d.eof

def lineIndex (d : Document) : LineIndex :=
  LineIndex.ofText d.text

/-- All nodes, by where they start. -/
def nodes (d : Document) : List Tree :=
  d.root.descendants d.eof

end Document

namespace Tree

mutual

/-- The node, then the nodes below it that hold byte `offset`, from the top down. -/
def pathDown (eof offset : Nat) : Tree → List Tree
  | leaf _ => []
  | node k cs => node k cs :: pathAmong eof offset cs

def pathAmong (eof offset : Nat) : List Tree → List Tree
  | [] => []
  | c :: cs =>
    if c.isNode && (c.span eof).contains offset then c.pathDown eof offset
    else pathAmong eof offset cs

end

/-- The nodes that hold byte `offset`, from this one down. The end of this node counts as inside,
the ends of the nodes below it do not. -/
def coveringPath (eof offset : Nat) (t : Tree) : List Tree :=
  if (t.span eof).touches offset then t.pathDown eof offset else []

end Tree

namespace Document

def coveringPath (d : Document) (offset : Nat) : List Tree :=
  d.root.coveringPath d.eof offset

/-- The deepest node at byte `offset` that `accepts` holds of. -/
def ancestor? (d : Document) (offset : Nat) (accepts : Tree → Bool) : Option Tree :=
  (d.coveringPath offset).reverse.find? accepts

def newline (d : Document) : Text :=
  Text.newline d.text

def indentAt (d : Document) (offset : Nat) : Text :=
  Text.indentAt offset d.text

/-- The text of a span, if it starts and ends between characters. -/
def slice? (d : Document) (s : Span) : Option Text :=
  Text.slice s.start s.stop d.text

end Document

end EventLint
