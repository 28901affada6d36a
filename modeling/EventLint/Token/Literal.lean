import EventLint.Text.Basic

/-!
# Literals

How far a string, character or numeric literal reaches. Each function gets the text after the
mark that opens the literal and counts the characters that still belong to it. A literal that is
never closed ends with its line if it cannot hold a line break, and with the text otherwise.
-/

namespace EventLint.Literal

/-- Up to and including `quote`, where a backslash keeps the next character from closing the
literal. A line break closes it too. -/
def escapedExtent (quote : Char) : Text → Nat
  | [] => 0
  | ['\\'] => 1
  | '\\' :: _ :: cs => 2 + escapedExtent quote cs
  | c :: cs => if c = quote || c = '\n' then 1 else 1 + escapedExtent quote cs

/-- Up to and including a double quote that is not doubled. -/
def verbatimExtent : Text → Nat
  | [] => 0
  | '"' :: '"' :: cs => 2 + verbatimExtent cs
  | c :: cs => if c = '"' then 1 else 1 + verbatimExtent cs

/-- Up to and including the first `quotes` double quotes in a row, `seen` of which precede. -/
def rawExtent (quotes seen : Nat) : Text → Nat
  | [] => 0
  | c :: cs =>
    if c = '"' then
      if seen + 1 = quotes then 1 else 1 + rawExtent quotes (seen + 1) cs
    else 1 + rawExtent quotes 0 cs

inductive Place where
  /-- In the text of the literal. -/
  | text
  /-- In a hole, inside `depth + 1` braces. -/
  | hole (depth : Nat)
  /-- In a string that stands in such a hole. -/
  | nested (depth : Nat)
  /-- Before a character without a meaning of its own, after which the scan goes on. -/
  | skip (next : Place)

/-- An interpolated string. Its text ends at a double quote; a brace in it opens a hole unless it
is doubled, and in a hole braces nest and strings are skipped. -/
def interpolatedExtent (verbatim : Bool) : Place → Text → Nat
  | _, [] => 0
  | .skip next, _ :: cs => 1 + interpolatedExtent verbatim next cs
  | .text, c :: cs =>
    if c = '"' then
      if verbatim && cs.head? = some '"' then 1 + interpolatedExtent verbatim (.skip .text) cs
      else 1
    else if c = '\\' && !verbatim then 1 + interpolatedExtent verbatim (.skip .text) cs
    else if c = '\n' && !verbatim then 1
    else if c = '\x7b' then
      if cs.head? = some '\x7b' then 1 + interpolatedExtent verbatim (.skip .text) cs
      else 1 + interpolatedExtent verbatim (.hole 0) cs
    else 1 + interpolatedExtent verbatim .text cs
  | .hole depth, c :: cs =>
    if c = '"' then 1 + interpolatedExtent verbatim (.nested depth) cs
    else if c = '\\' && !verbatim then 1 + interpolatedExtent verbatim (.skip (.hole depth)) cs
    else if c = '\x7b' then 1 + interpolatedExtent verbatim (.hole (depth + 1)) cs
    else if c = '\x7d' then
      1 + interpolatedExtent verbatim (if depth = 0 then .text else .hole (depth - 1)) cs
    else 1 + interpolatedExtent verbatim (.hole depth) cs
  | .nested depth, c :: cs =>
    if c = '\\' then 1 + interpolatedExtent verbatim (.skip (.nested depth)) cs
    else if c = '"' || c = '\n' then 1 + interpolatedExtent verbatim (.hole depth) cs
    else 1 + interpolatedExtent verbatim (.nested depth) cs

/-- `@` and `$` in front of a string. -/
def isStringMark (c : Char) : Bool :=
  c = '@' || c = '$'

/-- A string literal after its first double quote, with `marks` in front of that. Three double
quotes or more open a raw string, which as many close. -/
def stringExtent (marks body : Text) : Nat :=
  let quotes := (body.takeWhile (· = '"')).length
  if 2 ≤ quotes then quotes + rawExtent (quotes + 1) 0 (body.drop quotes)
  else if marks.contains '$' then interpolatedExtent (marks.contains '@') .text body
  else if marks.contains '@' then verbatimExtent body
  else escapedExtent '"' body

/-- How far a string literal reaches after the first character of `cs`, if `cs` starts with one. -/
def stringExtent? (cs : Text) : Option Nat :=
  let marks := cs.takeWhile isStringMark
  match cs.dropWhile isStringMark with
  | '"' :: body => some (marks.length + stringExtent marks body)
  | _ => none

/-- The rest of a number: digits, letters, underscores, and points before a digit. -/
def numberExtent : Text → Nat
  | [] => 0
  | c :: cs =>
    if c = '_' || c.isAlphanum || (c = '.' && cs.head?.any Char.isDigit) then 1 + numberExtent cs
    else 0

end EventLint.Literal
