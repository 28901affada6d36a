/-!
# Kinds of tokens
-/

namespace EventLint

/-- The reserved words that the scanner tells from identifiers. -/
inductive Keyword where
  | eventKw
  | namespaceKw
  | usingKw
  | classKw
  | structKw
  | interfaceKw
  | enumKw
  | delegateKw
  | returnKw
  | thisKw
  | publicKw
  | privateKw
  | protectedKw
  | internalKw
  | staticKw
  | virtualKw
  | overrideKw
  | abstractKw
  | sealedKw
  | newKw
  | readonlyKw
  | externKw
  | unsafeKw
  | volatileKw
  | constKw
deriving DecidableEq, Repr

namespace Keyword

def all : List Keyword :=
  [eventKw, namespaceKw, usingKw, classKw, structKw, interfaceKw, enumKw, delegateKw, returnKw,
   thisKw, publicKw, privateKw, protectedKw, internalKw, staticKw, virtualKw, overrideKw,
   abstractKw, sealedKw, newKw, readonlyKw, externKw, unsafeKw, volatileKw, constKw]

def text : Keyword → String
  | eventKw => "event"
  | namespaceKw => "namespace"
  | usingKw => "using"
  | classKw => "class"
  | structKw => "struct"
  | interfaceKw => "interface"
  | enumKw => "enum"
  | delegateKw => "delegate"
  | returnKw => "return"
  | thisKw => "this"
  | publicKw => "public"
  | privateKw => "private"
  | protectedKw => "protected"
  | internalKw => "internal"
  | staticKw => "static"
  | virtualKw => "virtual"
  | overrideKw => "override"
  | abstractKw => "abstract"
  | sealedKw => "sealed"
  | newKw => "new"
  | readonlyKw => "readonly"
  | externKw => "extern"
  | unsafeKw => "unsafe"
  | volatileKw => "volatile"
  | constKw => "const"

def ofText? (word : List Char) : Option Keyword :=
  all.find? fun k => k.text.toList = word

theorem ofText?_text (k : Keyword) : ofText? k.text.toList = some k := by
  cases k <;> decide

/-- The word may stand in the modifier list of a member. -/
def isModifier : Keyword → Bool
  | publicKw | privateKw | protectedKw | internalKw | staticKw | virtualKw | overrideKw
  | abstractKw | sealedKw | newKw | readonlyKw | externKw | unsafeKw | volatileKw | constKw => true
  | _ => false

end Keyword

inductive TokenKind where
  | ident
  | numericLiteral
  | stringLiteral
  | charLiteral
  | lbrace
  | rbrace
  | lparen
  | rparen
  | lbracket
  | rbracket
  | lt
  | gt
  | semicolon
  | comma
  | dot
  | question
  | colon
  | colonColon
  | eq
  | plusEq
  | minusEq
  | compoundAssign
  | fatArrow
  | questionDot
  | operator
  | error
  | keyword (word : Keyword)
deriving DecidableEq, Repr

namespace TokenKind

def all : List TokenKind :=
  [ident, numericLiteral, stringLiteral, charLiteral, lbrace, rbrace, lparen, rparen, lbracket,
   rbracket, lt, gt, semicolon, comma, dot, question, colon, colonColon, eq, plusEq, minusEq,
   compoundAssign, fatArrow, questionDot, operator, error] ++ Keyword.all.map keyword

def keywordText? : TokenKind → Option String
  | keyword k => some k.text
  | _ => none

def isKeyword : TokenKind → Bool
  | keyword _ => true
  | _ => false

def isModifier : TokenKind → Bool
  | keyword k => k.isModifier
  | _ => false

/-- `=`, `+=`, `-=` and the other compound assignments. -/
def isAssignment : TokenKind → Bool
  | eq | plusEq | minusEq | compoundAssign => true
  | _ => false

/-- An opening brace, parenthesis or bracket. -/
def opens : TokenKind → Bool
  | lbrace | lparen | lbracket => true
  | _ => false

/-- A closing brace, parenthesis or bracket. -/
def closes : TokenKind → Bool
  | rbrace | rparen | rbracket => true
  | _ => false

end TokenKind

end EventLint
