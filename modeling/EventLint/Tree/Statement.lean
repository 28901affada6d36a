import EventLint.Tree.Group

/-!
# Expressions and statements

An expression is a run of tokens up to a stop outside brackets. Only names, member accesses and
assignments are told apart. A statement is an expression, a `return`, a block or, where neither
shape fits, a run of tokens kept as it is.
-/

namespace EventLint.Tree

/-! ## Expressions -/

/-- How many tokens stand before the first that `stop` accepts, or that closes a bracket, outside
brackets; `depth` brackets are open already. -/
def expressionExtent (stop : TokenKind → Bool) : Nat → List Token → Nat
  | _, [] => 0
  | depth, t :: ts =>
    if depth = 0 ∧ (stop t.kind ∨ t.kind.closes) then 0
    else
      1 + expressionExtent stop
        (if t.kind.opens then depth + 1 else if t.kind.closes then depth - 1 else depth) ts

/-- Pairs of a point and an identifier. -/
def isMemberTail : List Token → Bool
  | [] => true
  | [_] => false
  | a :: b :: ts => a.kind = .dot && b.kind = .ident && isMemberTail ts

/-- What an expression of these tokens is: a name, a member access, or anything else. -/
def expressionKind : List Token → NodeKind
  | [] => .expression
  | [t] => if t.kind = .ident then .identifierName else .expression
  | t :: ts =>
    if (t.kind = .ident || t.kind = .keyword .thisKw) && isMemberTail ts then
      .memberAccessExpression
    else .expression

def expression : List Token → List Tree
  | [] => []
  | t :: ts => [node (expressionKind (t :: ts)) ((t :: ts).map leaf)]

/-- An expression up to a semicolon. It is an assignment if an assignment operator stands in it
outside brackets, and the first of them divides it. -/
def assignment (ts : List Token) : List Tree × List Token :=
  let n := expressionExtent (fun k => k = .semicolon || k.isAssignment) 0 ts
  let left := expression (ts.take n)
  match ts.drop n with
  | [] => (left, [])
  | t :: rest =>
    if t.kind.isAssignment then
      let m := expressionExtent (· = .semicolon) 0 rest
      ([node .assignmentExpression (left ++ leaf t :: expression (rest.take m))], rest.drop m)
    else (left, t :: rest)

/-! ## Statements -/

def controlWords : List String :=
  ["if", "else", "for", "foreach", "while", "do", "switch", "try", "catch", "finally", "lock",
   "fixed", "checked", "unchecked", "goto", "break", "continue", "throw", "yield", "case",
   "default"]

/-- Two names stand side by side before any assignment, call, brace or semicolon; `named` says
that the token before could end a type. -/
def declaresLocal (named : Bool) : List Token → Bool
  | [] => false
  | t :: ts =>
    if t.kind.isAssignment || t.kind = .semicolon || t.kind = .lparen || t.kind = .lbrace ||
        t.kind = .rbrace then false
    else if t.kind = .ident && named then true
    else
      declaresLocal
        (t.kind = .ident || t.kind = .gt || t.kind = .rbracket || t.kind = .question) ts

def isOpaqueStatement (t : Token) (rest : List Token) : Bool :=
  t.kind = .semicolon || t.kind = .keyword .usingKw || t.kind = .keyword .unsafeKw ||
    t.kind = .keyword .constKw || t.isWord controlWords || declaresLocal false (t :: rest)

/-- How many tokens a statement that is kept as it is takes; a point or `while` may follow its
braces. -/
def statementExtent (ts : List Token) : Nat :=
  opaqueExtent (fun t => t.kind = .dot || t.isWord ["while"]) ts

def simpleStatement (t : Token) (rest : List Token) : Tree × List Token :=
  if t.kind = .keyword .returnKw then
    let n := expressionExtent (· = .semicolon) 0 rest
    let (close, after) := optional .semicolon (rest.drop n)
    (node .returnStatement (leaf t :: expression (rest.take n) ++ close), after)
  else if isOpaqueStatement t rest then
    let n := statementExtent (t :: rest) - 1
    (node .otherStatement ((t :: rest.take n).map leaf), rest.drop n)
  else
    let (value, after) := assignment (t :: rest)
    let (close, after) := optional .semicolon after
    match value ++ close with
    | [] => (node .expressionStatement [leaf t], rest)
    | parts => (node .expressionStatement parts, after)

/-- A block: its opening brace, what stands in it, and its closing brace if it has one. -/
def closeBlock (opening : Token) (body : List Tree × List Token) : Tree × List Token :=
  let (close, after) := optional .rbrace body.2
  (node .block (leaf opening :: body.1 ++ close), after)

def statements (ts : List Token) : List Tree × List Token :=
  match ts with
  | [] => ([], [])
  | t :: rest =>
    if t.kind = .rbrace then ([], ts)
    else
      let (first, after) :=
        if t.kind = .lbrace then closeBlock t (statements rest) else simpleStatement t rest
      if after.length ≤ rest.length then
        let (more, after) := statements after
        (first :: more, after)
      else ([first], after)
termination_by ts.length

def block (opening : Token) (rest : List Token) : Tree × List Token :=
  closeBlock opening (statements rest)

def arrowClause (arrow : Token) (rest : List Token) : Tree × List Token :=
  let (value, after) := assignment rest
  (node .arrowExpressionClause (leaf arrow :: value), after)

/-- The body of a method or accessor: a block, an arrow with a semicolon, a semicolon alone, or
nothing. -/
def body (ts : List Token) : List Tree × List Token :=
  match ts with
  | [] => ([], [])
  | t :: rest =>
    match t.kind with
    | .lbrace =>
      let (tree, after) := block t rest
      ([tree], after)
    | .fatArrow =>
      let (clause, after) := arrowClause t rest
      let (close, after) := optional .semicolon after
      (clause :: close, after)
    | .semicolon => ([leaf t], rest)
    | _ => ([], ts)

end EventLint.Tree
