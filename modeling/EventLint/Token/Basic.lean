import EventLint.Text.Basic
import EventLint.Token.Kind

/-!
# Tokens
-/

namespace EventLint

/-- A half-open range of byte offsets. -/
structure Span where
  start : Nat
  stop : Nat
deriving DecidableEq, Repr

namespace Span

/-- The offset lies in the range, its end left out. -/
def contains (s : Span) (offset : Nat) : Bool :=
  s.start ≤ offset && offset < s.stop

/-- The offset lies in the range, its end included. -/
def touches (s : Span) (offset : Nat) : Bool :=
  s.start ≤ offset && offset ≤ s.stop

end Span

/-- A token with the blanks, comments and directive lines in front of it. -/
structure Token where
  kind : TokenKind
  leading : Text
  text : Text
  /-- The byte offset of the first character of `text`. -/
  start : Nat
deriving DecidableEq, Repr

namespace Token

def stop (t : Token) : Nat :=
  t.start + Text.byteSize t.text

def span (t : Token) : Span :=
  ⟨t.start, t.stop⟩

/-- The part of the source that belongs to a token: what stands in front of it, then itself. -/
def written (t : Token) : Text :=
  t.leading ++ t.text

/-- The token is an identifier spelled like one of `words`. -/
def isWord (t : Token) (words : List String) : Bool :=
  t.kind = .ident && words.any fun w => w.toList = t.text

end Token

end EventLint
