import EventLint.Proofs.Removal
import EventLint.Tree.Member

/-!
# Well-formed programs

The programs that the reader is meant for: nested namespaces and types, events with or without
accessors, and fields, properties and methods around any text whose brackets nest. A program is
printed with one blank between its tokens.
-/

namespace EventLint

/-- A token apart from where it stands: its kind and its text. -/
abbrev Lexeme := TokenKind × Text

namespace Grammar

open Tree

/-! ## 1. Lexemes -/

def keyword (k : Keyword) : Lexeme :=
  (.keyword k, k.text.toList)

/-- The text of a mark that is always written the same way. -/
def sign : TokenKind → Text
  | .lbrace => ['\x7b']
  | .rbrace => ['\x7d']
  | .lparen => ['(']
  | .rparen => [')']
  | .lbracket => ['[']
  | .rbracket => [']']
  | .lt => ['<']
  | .gt => ['>']
  | .semicolon => [';']
  | .comma => [',']
  | .dot => ['.']
  | .colonColon => "::".toList
  | .question => ['?']
  | .eq => ['=']
  | .plusEq => "+=".toList
  | .minusEq => "-=".toList
  | .fatArrow => "=>".toList
  | .questionDot => "?.".toList
  | _ => []

def mark (k : TokenKind) : Lexeme :=
  (k, sign k)

/-- An identifier with a fixed spelling. -/
def word (s : String) : Lexeme :=
  (.ident, s.toList)

/-- Words that the reader does not take for names everywhere. -/
def contextualWords : List String :=
  contextualModifiers ++ parameterModifiers ++ controlWords ++ ["record"]

/-- An ordinary identifier. -/
structure Ident where
  text : Text
  ordinary : (contextualWords.any fun w => w.toList = text) = false
deriving DecidableEq, Repr

def Ident.lexeme (i : Ident) : Lexeme :=
  (.ident, i.text)

/-- The brackets `o` and `c` are the two halves of a pair. -/
def Pairs (o c : TokenKind) : Prop :=
  (o = .lparen ∧ c = .rparen) ∨ (o = .lbracket ∧ c = .rbracket) ∨ (o = .lbrace ∧ c = .rbrace)

/-- Parentheses, brackets and braces nest properly. -/
inductive Nested {α : Type} (kind : α → TokenKind) : List α → Prop where
  | nil : Nested kind []
  | plain {x : α} {xs : List α} (hopens : (kind x).opens = false)
      (hcloses : (kind x).closes = false) (hxs : Nested kind xs) : Nested kind (x :: xs)
  | group {o c : α} {inner xs : List α} (hpair : Pairs (kind o) (kind c))
      (hinner : Nested kind inner) (hxs : Nested kind xs) :
      Nested kind (o :: inner ++ c :: xs)

/-- Any tokens with nested brackets. -/
structure Balanced where
  lexemes : List Lexeme
  nested : Nested Prod.fst lexemes

/-! ## 2. Types -/

inductive TypeMark where
  | nullable
  | array
deriving DecidableEq, Repr

def TypeMark.lexemes : TypeMark → List Lexeme
  | nullable => [mark .question]
  | array => [mark .lbracket, mark .rbracket]

mutual

/-- A name with type arguments, or with none. -/
inductive SimpleName where
  | mk (name : Ident) (arguments : List TypeName)

/-- Names with points between them, and the marks that follow them. -/
inductive TypeName where
  | mk (first : SimpleName) (more : List SimpleName) (marks : List TypeMark)

end

mutual

def SimpleName.lexemes : SimpleName → List Lexeme
  | .mk name [] => [name.lexeme]
  | .mk name (a :: more) => name.lexeme :: mark .lt :: (a.lexemes ++ argumentsTail more)

/-- The type arguments after the first one, through the closing angle bracket. -/
def argumentsTail : List TypeName → List Lexeme
  | [] => [mark .gt]
  | a :: more => mark .comma :: (a.lexemes ++ argumentsTail more)

/-- The names after the first one. -/
def namesTail : List SimpleName → List Lexeme
  | [] => []
  | s :: more => mark .dot :: (s.lexemes ++ namesTail more)

def TypeName.lexemes : TypeName → List Lexeme
  | .mk first more marks => first.lexemes ++ namesTail more ++ marks.flatMap TypeMark.lexemes

end

/-! ## 3. Accessors -/

inductive AssignOp where
  | set
  | add
  | sub
deriving DecidableEq, Repr

def AssignOp.kind : AssignOp → TokenKind
  | set => .eq
  | add => .plusEq
  | sub => .minusEq

/-- `x += y` or `this.x += y`, with any of the three operators. -/
structure Assign where
  /-- The left side starts with `this`. -/
  qualified : Bool
  target : Ident
  op : AssignOp
  value : Ident
deriving DecidableEq, Repr

def Assign.left (a : Assign) : List Lexeme :=
  if a.qualified then [keyword .thisKw, mark .dot, a.target.lexeme] else [a.target.lexeme]

def Assign.lexemes (a : Assign) : List Lexeme :=
  a.left ++ [mark a.op.kind, a.value.lexeme]

inductive Stmt where
  | assign (a : Assign)
  | call (name : Ident) (arguments : Balanced)

/-- A statement without its semicolon. -/
def Stmt.expression : Stmt → List Lexeme
  | assign a => a.lexemes
  | call name arguments => name.lexeme :: mark .lparen :: (arguments.lexemes ++ [mark .rparen])

def Stmt.lexemes (s : Stmt) : List Lexeme :=
  s.expression ++ [mark .semicolon]

inductive Body where
  | block (statements : List Stmt)
  | arrow (a : Assign)

def Body.lexemes : Body → List Lexeme
  | block statements =>
    mark .lbrace :: (statements.flatMap Stmt.lexemes ++ [mark .rbrace])
  | arrow a => mark .fatArrow :: (a.lexemes ++ [mark .semicolon])

/-! ## 4. Members -/

/-- Modifiers in front of a member, none of them twice. -/
structure Modifiers where
  words : List Keyword
  modifies : words.all Keyword.isModifier = true
  distinct : words.Nodup
deriving DecidableEq, Repr

def Modifiers.lexemes (m : Modifiers) : List Lexeme :=
  m.words.map keyword

inductive EventTail where
  /-- More names, as for a field. -/
  | names (more : List Ident)
  | accessors (add remove : Body)

structure EventMember where
  modifiers : Modifiers
  type : TypeName
  name : Ident
  tail : EventTail

def EventTail.lexemes : EventTail → List Lexeme
  | names more => more.flatMap (fun i => [mark .comma, i.lexeme]) ++ [mark .semicolon]
  | accessors add remove =>
    mark .lbrace :: word "add" :: (add.lexemes ++ word "remove" :: (remove.lexemes ++
      [mark .rbrace]))

def EventMember.lexemes (e : EventMember) : List Lexeme :=
  e.modifiers.lexemes ++ keyword .eventKw :: (e.type.lexemes ++ e.name.lexeme :: e.tail.lexemes)

/-- What makes a member with a type and a name a field, a property or a method. -/
inductive PlainTail where
  | field
  | property (body : Balanced)
  | method (parameters body : Balanced)

structure PlainMember where
  modifiers : Modifiers
  type : TypeName
  name : Ident
  tail : PlainTail

def braced (b : Balanced) : List Lexeme :=
  mark .lbrace :: (b.lexemes ++ [mark .rbrace])

def PlainTail.lexemes : PlainTail → List Lexeme
  | field => [mark .semicolon]
  | property body => braced body
  | method parameters body =>
    mark .lparen :: (parameters.lexemes ++ mark .rparen :: braced body)

def PlainMember.lexemes (m : PlainMember) : List Lexeme :=
  m.modifiers.lexemes ++ (m.type.lexemes ++ m.name.lexeme :: m.tail.lexemes)

/-! ## 5. Programs -/

inductive Member where
  /-- A class, or a struct. -/
  | type (modifiers : Modifiers) (isStruct : Bool) (name : Ident) (members : List Member)
  | event (e : EventMember)
  | plain (m : PlainMember)

inductive Decl where
  | scope (name : Ident) (decls : List Decl)
  | member (m : Member)

abbrev Program := List Decl

/-- The front of a type, through its opening brace. -/
def typeHead (modifiers : Modifiers) (isStruct : Bool) (name : Ident) : List Lexeme :=
  modifiers.lexemes ++
    [keyword (if isStruct then .structKw else .classKw), name.lexeme, mark .lbrace]

/-- The front of a namespace, through its opening brace. -/
def scopeHead (name : Ident) : List Lexeme :=
  [keyword .namespaceKw, name.lexeme, mark .lbrace]

mutual

def Member.lexemes : Member → List Lexeme
  | .type modifiers isStruct name members =>
    typeHead modifiers isStruct name ++ (Member.lexemesAll members ++ [mark .rbrace])
  | .event e => e.lexemes
  | .plain m => m.lexemes

def Member.lexemesAll : List Member → List Lexeme
  | [] => []
  | m :: ms => m.lexemes ++ Member.lexemesAll ms

end

mutual

def Decl.lexemes : Decl → List Lexeme
  | .scope name decls => scopeHead name ++ (Program.lexemes decls ++ [mark .rbrace])
  | .member m => m.lexemes

def Program.lexemes : List Decl → List Lexeme
  | [] => []
  | d :: ds => d.lexemes ++ Program.lexemes ds

end

/-! ## 6. Printing -/

/-- The texts of lexemes, with one blank between them. -/
def print (xs : List Lexeme) : Text :=
  [' '].intercalate (xs.map Prod.snd)

theorem print_cons (x : Lexeme) (xs : List Lexeme) :
    print (x :: xs) = x.2 ++ xs.flatMap fun y => ' ' :: y.2 := by
  induction xs generalizing x with
  | nil => simp [print, List.intercalate]
  | cons y xs ih =>
    have h := ih y
    rw [print, List.map_cons] at h
    rw [print, List.map_cons, List.map_cons, List.intercalate_cons_cons, h, List.flatMap_cons]
    simp

theorem print_append {xs ys : List Lexeme} (hx : xs ≠ []) (hy : ys ≠ []) :
    print (xs ++ ys) = print xs ++ ' ' :: print ys := by
  obtain ⟨x, xs, rfl⟩ := List.exists_cons_of_ne_nil hx
  obtain ⟨y, ys, rfl⟩ := List.exists_cons_of_ne_nil hy
  rw [List.cons_append, print_cons, print_cons, print_cons, List.flatMap_append, List.flatMap_cons]
  simp

/-- The tokens of a printed text from byte `offset` on, `gap` standing in front of the first. -/
def placed (offset : Nat) (gap : Text) : List Lexeme → List Token
  | [] => []
  | x :: xs =>
    ⟨x.1, gap, x.2, offset + Text.byteSize gap⟩ ::
      placed (offset + Text.byteSize gap + Text.byteSize x.2) [' '] xs

/-- The printed text is scanned to the tokens that were printed. -/
def LexesBack (xs : List Lexeme) : Prop :=
  Token.scan (print xs) = placed 0 [] xs

end Grammar

end EventLint
