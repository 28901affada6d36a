import EventLint.Tree.Member

/-!
# Declarations

A source file is a list of declarations, and so is the body of a namespace or a type. Namespaces
and types are opened, filled with the declarations up to their end, and closed; every other
declaration is read as a whole.
-/

namespace EventLint.Tree

/-- What surrounds a list of declarations. -/
inductive Scope where
  /-- A file, or a namespace without braces: it ends with the text. -/
  | file
  /-- The braces of a namespace. -/
  | namespaceBody
  /-- The braces of a type. -/
  | typeBody
deriving DecidableEq, Repr

/-- A token of kind `k` ends the list of declarations. -/
def Scope.endsAt (scope : Scope) (k : TokenKind) : Bool :=
  scope ≠ .file && k = .rbrace

inductive Opening where
  /-- All of it: no declarations stand inside. -/
  | whole (tree : Tree) (rest : List Token)
  /-- Up to the declarations inside. -/
  | container (kind : NodeKind) (parts : List Tree) (scope : Scope) (rest : List Token)

def throughSemicolon : List Token → Nat
  | [] => 0
  | t :: ts => if t.kind = .semicolon then 1 else 1 + throughSemicolon ts

def isNamePart (t : Token) : Bool :=
  t.kind = .ident || t.kind = .dot || t.kind = .colonColon

def openNamespace (keyword : Token) (ts : List Token) : Opening :=
  let parts := leaf keyword :: (ts.takeWhile isNamePart).map leaf
  match ts.dropWhile isNamePart with
  | [] => .whole (node .namespaceDeclaration parts) []
  | t :: rest =>
    if t.kind = .semicolon then
      .container .namespaceDeclaration (parts ++ [leaf t]) .file rest
    else if t.kind = .lbrace then
      .container .namespaceDeclaration (parts ++ [leaf t]) .namespaceBody rest
    else .whole (node .namespaceDeclaration parts) (t :: rest)

/-- The kind of type that `t` declares, if it declares one. `record` does so only before a name,
`class` or `struct`. -/
def typeKind? (t : Token) (rest : List Token) : Option NodeKind :=
  match t.kind with
  | .keyword .classKw => some .classDeclaration
  | .keyword .structKw => some .structDeclaration
  | .keyword .interfaceKw => some .interfaceDeclaration
  | .keyword .enumKw => some .enumDeclaration
  | _ =>
    if t.isWord ["record"] &&
        (nextIs .ident rest || nextIs (.keyword .classKw) rest ||
          nextIs (.keyword .structKw) rest) then
      some .recordDeclaration
    else none

/-- How many tokens stand between the keyword of a type and its body: name, type parameters,
parameters, bases and constraints. -/
def headerExtent (ts : List Token) : Nat :=
  match ts with
  | [] => 0
  | t :: rest =>
    match t.kind with
    | .lbrace | .semicolon | .rbrace => 0
    | .lparen | .lbracket =>
      let n := closingExtent 1 rest
      1 + n + headerExtent (rest.drop n)
    | _ => 1 + headerExtent rest
termination_by ts.length

/-- A type, from its keyword on. The body of an enum is kept as it is. -/
def openType (kind : NodeKind) (lead : List Tree) (keyword : Token) (ts : List Token) : Opening :=
  let n := headerExtent ts
  let parts := lead ++ leaf keyword :: (ts.take n).map leaf
  match ts.drop n with
  | [] => .whole (node kind parts) []
  | t :: rest =>
    if t.kind ≠ .lbrace then
      let (close, after) := optional .semicolon (t :: rest)
      .whole (node kind (parts ++ close)) after
    else if kind = .enumDeclaration then
      let m := closingExtent 1 rest
      let (close, after) := optional .semicolon (rest.drop m)
      .whole (node kind (parts ++ (t :: rest.take m).map leaf ++ close)) after
    else .container kind (parts ++ [leaf t]) .typeBody rest

def openMember (t : Token) (rest : List Token) : Opening :=
  let lead := (leading (t :: rest)).1
  match (leading (t :: rest)).2 with
  | [] => .whole (node .otherMember lead) []
  | first :: after =>
    if first.kind = .keyword .eventKw then
      let (tree, after) := event lead first after
      .whole tree after
    else
      match typeKind? first after with
      | some kind => openType kind lead first after
      | none =>
        match method? (first :: after) with
        | some (parts, after) => .whole (node .methodDeclaration (lead ++ parts)) after
        | none =>
          let n := memberExtent (first :: after)
          let n := if lead.isEmpty then max 1 n else n
          .whole (node .otherMember (lead ++ ((first :: after).take n).map leaf))
            ((first :: after).drop n)

def openDeclaration (scope : Scope) (t : Token) (rest : List Token) : Opening :=
  if t.kind = .keyword .usingKw && scope ≠ .typeBody && !nextIs .lparen rest then
    let n := throughSemicolon rest
    .whole (node .usingDirective ((t :: rest.take n).map leaf)) (rest.drop n)
  else if t.kind = .keyword .namespaceKw then openNamespace t rest
  else if t.kind = .rbrace then .whole (node .errorNode [leaf t]) rest
  else openMember t rest

/-- A namespace or type around the declarations inside it, with the brace that closes it and, for
a type, a semicolon. -/
def closeContainer (kind : NodeKind) (parts : List Tree) (scope : Scope)
    (inner : List Tree × List Token) : Tree × List Token :=
  match scope with
  | .file => (node kind (parts ++ inner.1), inner.2)
  | .namespaceBody =>
    let (close, after) := optional .rbrace inner.2
    (node kind (parts ++ inner.1 ++ close), after)
  | .typeBody =>
    let (close, after) := optional .rbrace inner.2
    let (semicolon, after) := optional .semicolon after
    (node kind (parts ++ inner.1 ++ close ++ semicolon), after)

theorem openNamespace_rest_le {keyword : Token} {ts after : List Token} {kind : NodeKind}
    {parts : List Tree} {scope : Scope}
    (h : openNamespace keyword ts = .container kind parts scope after) :
    after.length ≤ ts.length := by
  have hd := (List.dropWhile_sublist isNamePart (l := ts)).length_le
  unfold openNamespace at h
  dsimp only at h
  split at h
  · cases h
  · rename_i t rest hr
    rw [hr, List.length_cons] at hd
    split at h
    · cases h
      omega
    · split at h <;> cases h
      omega

theorem openType_rest_le {kind kind' : NodeKind} {lead parts : List Tree} {keyword : Token}
    {ts after : List Token} {scope : Scope}
    (h : openType kind lead keyword ts = .container kind' parts scope after) :
    after.length ≤ ts.length := by
  have hd := (List.drop_sublist (headerExtent ts) ts).length_le
  unfold openType at h
  dsimp only at h
  split at h
  · cases h
  · rename_i t rest hr
    rw [hr, List.length_cons] at hd
    split at h
    · cases h
    · split at h <;> cases h
      omega

theorem openDeclaration_rest_le {scope scope' : Scope} {t : Token} {rest after : List Token}
    {kind : NodeKind} {parts : List Tree}
    (h : openDeclaration scope t rest = .container kind parts scope' after) :
    after.length ≤ rest.length := by
  unfold openDeclaration at h
  split at h
  · cases h
  split at h
  · exact openNamespace_rest_le h
  split at h
  · cases h
  have hl := leading_rest_le (t :: rest)
  unfold openMember at h
  dsimp only at h
  split at h
  · cases h
  · rename_i first following hf
    rw [hf, List.length_cons, List.length_cons] at hl
    split at h
    · cases h
    split at h
    · have := openType_rest_le h
      omega
    · split at h <;> cases h

/-- The declarations up to the end of their scope. -/
def declarations (scope : Scope) (ts : List Token) : List Tree × List Token :=
  match ts with
  | [] => ([], [])
  | t :: rest =>
    if scope.endsAt t.kind then ([], ts)
    else
      let (first, after) :=
        match h : openDeclaration scope t rest with
        | .whole tree after => (tree, after)
        | .container kind parts inner after =>
          have := openDeclaration_rest_le h
          closeContainer kind parts inner (declarations inner after)
      if after.length ≤ rest.length then
        let (more, after) := declarations scope after
        (first :: more, after)
      else ([first], after)
termination_by ts.length

def ofTokens (ts : List Token) : Tree :=
  node .compilationUnit (declarations .file ts).1

end EventLint.Tree
