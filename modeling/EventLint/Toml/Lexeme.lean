import EventLint.Text.Basic

/-!
# Lexemes of TOML

Text of version 1.1 is cut into lexemes. Comments are left out, quoted texts are decoded, and blanks
are kept: some lexemes must stand side by side.
-/

namespace EventLint.Toml

inductive Lexeme where
  /-- Spaces and tabs. -/
  | blank (text : Text)
  | newline
  | dot
  | equals
  | comma
  | openBracket
  | closeBracket
  | openBrace
  | closeBrace
  /-- A quoted text on one line. -/
  | quoted (text : Text)
  /-- A text between triple quotes. -/
  | multiline (text : Text)
  /-- A bare key, or part of a bare value. -/
  | bare (text : Text)
deriving DecidableEq, Repr

namespace Lexeme

/-- A control character that may not be written anywhere. -/
def isForbidden (c : Char) : Bool :=
  (c.toNat < 0x20 && c ≠ '\t') || c.toNat = 0x7F

def isBlankChar (c : Char) : Bool :=
  c = ' ' || c = '\t'

def endsBare (c : Char) : Bool :=
  isForbidden c || isBlankChar c || c ∈ ['.', '=', ',', '[', ']', '\x7b', '\x7d', '#', '"', '\'']

/-! ## Escapes -/

def hexDigit? (c : Char) : Option Nat :=
  if '0' ≤ c ∧ c ≤ '9' then some (c.toNat - '0'.toNat)
  else if 'a' ≤ c ∧ c ≤ 'f' then some (c.toNat - 'a'.toNat + 10)
  else if 'A' ≤ c ∧ c ≤ 'F' then some (c.toNat - 'A'.toNat + 10)
  else none

def hexValue? (cs : Text) : Option Nat :=
  cs.foldlM (fun n c => (hexDigit? c).map (16 * n + ·)) 0

/-- The character with the code point that the first `width` digits give. -/
def codePoint? (width : Nat) (cs : Text) : Option Char := do
  let digits := cs.take width
  guard (digits.length = width)
  let n ← hexValue? digits
  guard (n.isValidChar)
  return Char.ofNat n

/-- What an escape stands for, from the character after the backslash on, and how many characters
it takes. -/
def escape? : Text → Option (Char × Nat)
  | 'b' :: _ => some ('\x08', 1)
  | 't' :: _ => some ('\t', 1)
  | 'n' :: _ => some ('\n', 1)
  | 'f' :: _ => some ('\x0c', 1)
  | 'r' :: _ => some ('\r', 1)
  | 'e' :: _ => some ('\x1b', 1)
  | '"' :: _ => some ('"', 1)
  | '\\' :: _ => some ('\\', 1)
  | 'x' :: cs => (codePoint? 2 cs).map (·, 3)
  | 'u' :: cs => (codePoint? 4 cs).map (·, 5)
  | 'U' :: cs => (codePoint? 8 cs).map (·, 9)
  | _ => none

/-! ## Quoted texts

Each is read after its opening quotes; the result is the text and what follows the closing ones.
-/

/-- A text between single quotes. -/
def literal? : Text → Option (Text × Text)
  | [] => none
  | c :: cs =>
    if c = '\'' then some ([], cs)
    else if isForbidden c then none
    else (literal? cs).map fun (text, rest) => (c :: text, rest)

/-- A text between double quotes. -/
def basic? (cs : Text) : Option (Text × Text) :=
  match cs with
  | [] => none
  | c :: cs =>
    if c = '"' then some ([], cs)
    else if c = '\\' then
      match escape? cs with
      | none => none
      | some (e, width) => (basic? (cs.drop width)).map fun (text, rest) => (e :: text, rest)
    else if isForbidden c then none
    else (basic? cs).map fun (text, rest) => (c :: text, rest)
termination_by cs.length
decreasing_by all_goals (simp only [List.length_drop, List.length_cons]; omega)

/-- The line break that a text starts with is left out. -/
def dropNewline : Text → Text
  | '\n' :: cs => cs
  | '\r' :: '\n' :: cs => cs
  | cs => cs

/-- How many of the quotes that a text starts with belong to the text, if the others close it: at
least three close, and at most two come before them. -/
def closing? (quote : Char) (cs : Text) : Option Nat :=
  let run := (cs.takeWhile (· = quote)).length
  if run < 3 then none else some (min run 5 - 3)

def multilineLiteral? (cs : Text) : Option (Text × Text) :=
  match cs with
  | [] => none
  | c :: rest =>
    match closing? '\'' (c :: rest) with
    | some extra => some (List.replicate extra '\'', (c :: rest).drop (extra + 3))
    | none =>
      if c = '\r' ∧ rest.head? ≠ some '\n' then none
      else if isForbidden c ∧ c ≠ '\n' ∧ c ≠ '\r' then none
      else (multilineLiteral? rest).map fun (text, after) => (c :: text, after)

def isGap (c : Char) : Bool :=
  isBlankChar c || c = '\n' || c = '\r'

/-- A backslash before a line break skips it and all blanks and breaks after it. The result is how
many characters are skipped after the backslash. -/
def lineJoin? (cs : Text) : Option Nat :=
  let gap := cs.takeWhile isGap
  match (gap.dropWhile isBlankChar) with
  | '\n' :: _ => some gap.length
  | '\r' :: '\n' :: _ => some gap.length
  | _ => none

def multilineBasic? (cs : Text) : Option (Text × Text) :=
  match cs with
  | [] => none
  | c :: rest =>
    match closing? '"' (c :: rest) with
    | some extra => some (List.replicate extra '"', (c :: rest).drop (extra + 3))
    | none =>
      if c = '\\' then
        match lineJoin? rest with
        | some width => multilineBasic? (rest.drop width)
        | none =>
          match escape? rest with
          | none => none
          | some (e, width) =>
            (multilineBasic? (rest.drop width)).map fun (text, after) => (e :: text, after)
      else if c = '\r' ∧ rest.head? ≠ some '\n' then none
      else if isForbidden c ∧ c ≠ '\n' ∧ c ≠ '\r' then none
      else (multilineBasic? rest).map fun (text, after) => (c :: text, after)
termination_by cs.length
decreasing_by all_goals (simp only [List.length_drop, List.length_cons]; omega)

/-! ## Scanning -/

/-- The lexeme that a text starts with, if it is not a comment, and what follows it. -/
def first? : Text → Option (Option Lexeme × Text)
  | [] => none
  | '\n' :: cs => some (some newline, cs)
  | '\r' :: '\n' :: cs => some (some newline, cs)
  | '.' :: cs => some (some dot, cs)
  | '=' :: cs => some (some equals, cs)
  | ',' :: cs => some (some comma, cs)
  | '[' :: cs => some (some openBracket, cs)
  | ']' :: cs => some (some closeBracket, cs)
  | '\x7b' :: cs => some (some openBrace, cs)
  | '\x7d' :: cs => some (some closeBrace, cs)
  | '#' :: cs =>
    some (none, cs.dropWhile fun c => !isForbidden c)
  | '"' :: '"' :: '"' :: cs =>
    (multilineBasic? (dropNewline cs)).map fun (text, rest) => (some (multiline text), rest)
  | '"' :: cs => (basic? cs).map fun (text, rest) => (some (quoted text), rest)
  | '\'' :: '\'' :: '\'' :: cs =>
    (multilineLiteral? (dropNewline cs)).map fun (text, rest) => (some (multiline text), rest)
  | '\'' :: cs => (literal? cs).map fun (text, rest) => (some (quoted text), rest)
  | c :: cs =>
    if isBlankChar c then
      some (some (blank ((c :: cs).takeWhile isBlankChar)), (c :: cs).dropWhile isBlankChar)
    else if isForbidden c then none
    else
      some (some (bare ((c :: cs).takeWhile fun c => !endsBare c)),
        (c :: cs).dropWhile fun c => !endsBare c)

/-- The lexemes of a text. Each takes at least one character. -/
def scanFrom (cs : Text) : Option (List Lexeme) :=
  if cs = [] then some []
  else
    match first? cs with
    | none => none
    | some (lexeme, rest) =>
      if rest.length < cs.length then
        (scanFrom rest).map fun lexemes => lexeme.toList ++ lexemes
      else none
termination_by cs.length

/-- The lexemes of a document, which may start with a byte order mark. -/
def scan? : Text → Option (List Lexeme)
  | '\uFEFF' :: cs => scanFrom cs
  | cs => scanFrom cs

end Lexeme

end EventLint.Toml
