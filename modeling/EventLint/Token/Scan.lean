import EventLint.Text.Numeric
import EventLint.Token.Basic
import EventLint.Token.Literal
import EventLint.Token.Trivia

/-!
# Scanning

Splits a text into tokens. Every character ends up in one token, in the trivia in front of one, or
in the trivia after the last.
-/

namespace EventLint.Token

open Text

/-- Punctuation of several characters, the longest first. -/
def operators : List (String × TokenKind) :=
  [("??=", .compoundAssign), ("<<=", .compoundAssign), (">>=", .compoundAssign),
   ("::", .colonColon), ("+=", .plusEq), ("-=", .minusEq), ("*=", .compoundAssign),
   ("/=", .compoundAssign), ("%=", .compoundAssign), ("&=", .compoundAssign),
   ("|=", .compoundAssign), ("^=", .compoundAssign), ("=>", .fatArrow), ("?.", .questionDot),
   ("??", .operator), ("==", .operator), ("!=", .operator), ("<=", .operator), (">=", .operator),
   ("&&", .operator), ("||", .operator), ("++", .operator), ("--", .operator), ("->", .operator)]

def punctuationKind (c : Char) : TokenKind :=
  if c = '\x7b' then .lbrace
  else if c = '\x7d' then .rbrace
  else if c = '(' then .lparen
  else if c = ')' then .rparen
  else if c = '[' then .lbracket
  else if c = ']' then .rbracket
  else if c = '<' then .lt
  else if c = '>' then .gt
  else if c = ';' then .semicolon
  else if c = ',' then .comma
  else if c = '.' then .dot
  else if c = '?' then .question
  else if c = ':' then .colon
  else if c = '=' then .eq
  else if "+-*/%&|^!~".toList.contains c then .operator
  else .error

/-- A word goes on with letters and numbers of every script and with underscores. -/
def wordExtent : Text → Nat
  | [] => 0
  | c :: cs => if c = '_' || isAlphanumeric c then 1 + wordExtent cs else 0

/-- A word is a keyword if it is reserved, and an identifier otherwise. -/
def wordKind (word : Text) : TokenKind :=
  match Keyword.ofText? word with
  | some k => .keyword k
  | none => .ident

def symbol (c : Char) (rest : Text) : TokenKind × Nat :=
  match operators.find? fun (sign, _) => sign.toList.isPrefixOf (c :: rest) with
  | some (sign, kind) => (kind, sign.toList.length - 1)
  | none => (punctuationKind c, 0)

/-- The kind of the token that starts with `c`, and how many of the characters after `c` belong
to it. -/
def lexeme (c : Char) (rest : Text) : TokenKind × Nat :=
  if c = '@' && rest.head?.any (fun d => d = '_' || d.isAlpha) then (.ident, wordExtent rest)
  else if c = '_' || isAlphabetic c then
    let n := wordExtent rest
    (wordKind (c :: rest.take n), n)
  else if c.isDigit || (c = '.' && rest.head?.any Char.isDigit) then
    (.numericLiteral, Literal.numberExtent rest)
  else
    match Literal.stringExtent? (c :: rest) with
    | some n => (.stringLiteral, n)
    | none =>
      if c = '\'' then (.charLiteral, Literal.escapedExtent '\'' rest)
      else symbol c rest

/-- The tokens of `cs`, which stands at byte `offset`; `fresh` says that only blanks precede it on
its line. -/
def scanFrom (fresh : Bool) (offset : Nat) (cs : Text) : List Token :=
  let n := Trivia.extent fresh cs
  let leading := cs.take n
  match _h : cs.drop n with
  | [] => []
  | c :: rest =>
    let (kind, m) := lexeme c rest
    let text := c :: rest.take m
    let start := offset + byteSize leading
    ⟨kind, leading, text, start⟩ ::
      scanFrom (Trivia.freshAfter fresh (leading ++ text)) (start + byteSize text) (rest.drop m)
termination_by cs.length
decreasing_by
  have hlen := congrArg List.length _h
  simp only [List.length_drop, List.length_cons] at hlen ⊢
  omega

def scan (source : Text) : List Token :=
  scanFrom true 0 source

end EventLint.Token
