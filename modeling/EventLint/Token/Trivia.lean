import EventLint.Text.Basic
import EventLint.Text.Blank

/-!
# Trivia

Blanks, comments and directive lines separate tokens. A directive line starts with `#`, which
counts as such only if nothing but blanks stands before it on its line, so the scan carries that
fact along.
-/

namespace EventLint.Trivia

open Text

/-- Only blanks stand between the last line break and the end of `cs`; `fresh` says so of what
stands before `cs`. -/
def freshAfter (fresh : Bool) (cs : Text) : Bool :=
  cs.foldl (fun fresh c => c = '\n' || (fresh && isBlank c)) fresh

/-- How many characters stand before the next line break. -/
def lineExtent : Text → Nat
  | [] => 0
  | c :: cs => if c = '\n' then 0 else 1 + lineExtent cs

/-- How many characters a block comment still takes after its opening mark: through the first
closing mark, or all of them. -/
def commentExtent : Text → Nat
  | [] => 0
  | c :: cs => if c = '*' && cs.head? = some '/' then 2 else 1 + commentExtent cs

/-- How many characters of trivia a text starts with. -/
def extent (fresh : Bool) (cs : Text) : Nat :=
  match cs with
  | [] => 0
  | c :: rest =>
    if isBlank c then 1 + extent (fresh || c = '\n') rest
    else if c = '/' && rest.head? = some '/' then
      let n := lineExtent rest
      1 + n + extent false (rest.drop n)
    else if c = '/' && rest.head? = some '*' then
      let n := 1 + commentExtent rest.tail
      1 + n + extent false (rest.drop n)
    else if c = '#' && fresh then
      let n := lineExtent rest
      1 + n + extent false (rest.drop n)
    else 0
termination_by cs.length

end EventLint.Trivia
