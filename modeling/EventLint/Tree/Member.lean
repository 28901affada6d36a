import EventLint.Tree.Statement
import EventLint.Tree.TypeName

/-!
# Events and methods

The members that are read down to their parts. Each function gets the tokens after the attributes
and modifiers of the member.
-/

namespace EventLint.Tree

/-! ## Events -/

/-- A declared name with its initial value, if it has one. -/
def declarator (name : Token) (ts : List Token) : Tree × List Token :=
  match ts with
  | [] => (node .variableDeclarator [leaf name], [])
  | t :: rest =>
    if t.kind = .eq then
      let n := expressionExtent (fun k => k = .comma || k = .semicolon) 0 rest
      (node .variableDeclarator (leaf name :: leaf t :: expression (rest.take n)), rest.drop n)
    else (node .variableDeclarator [leaf name], ts)

theorem declarator_rest_le (name : Token) (ts : List Token) :
    (declarator name ts).2.length ≤ ts.length := by
  unfold declarator
  split
  · simp
  · split <;> simp
    omega

def declarators (ts : List Token) : List Tree × List Token :=
  match ts with
  | [] => ([], [])
  | t :: rest =>
    if t.kind = .ident then
      have := declarator_rest_le t rest
      match _h : (declarator t rest).2 with
      | [] => ([(declarator t rest).1], [])
      | comma :: after =>
        if comma.kind = .comma then
          let (more, after) := declarators after
          ((declarator t rest).1 :: leaf comma :: more, after)
        else ([(declarator t rest).1], comma :: after)
    else ([], ts)
termination_by ts.length
decreasing_by
  rw [_h] at this
  simp only [List.length_cons] at this ⊢
  omega

/-- An accessor: attributes, modifiers, its keyword and its body, or else a single token. -/
def accessor (t : Token) (rest : List Token) : Tree × List Token :=
  let (lead, after) := leading (t :: rest)
  let (keyword, after) := optional .ident after
  let (inner, after) := body after
  match lead ++ keyword ++ inner with
  | [] => (node .accessorDeclaration [leaf t], rest)
  | parts => (node .accessorDeclaration parts, after)

/-- The accessors up to the brace that closes their list. -/
def accessors (ts : List Token) : List Tree × List Token :=
  match ts with
  | [] => ([], [])
  | t :: rest =>
    if t.kind = .rbrace then ([], ts)
    else
      let (first, after) := accessor t rest
      if after.length ≤ rest.length then
        let (more, after) := accessors after
        (first :: more, after)
      else ([first], after)
termination_by ts.length

def accessorList (opening : Token) (rest : List Token) : Tree × List Token :=
  let (inner, after) := accessors rest
  let (close, after) := optional .rbrace after
  (node .accessorList (leaf opening :: inner ++ close), after)

/-- An event, from the keyword on; `lead` stands in front of it. After its type comes either one
name and a list of accessors, or names with commas between them. -/
def event (lead : List Tree) (keyword : Token) (ts : List Token) : Tree × List Token :=
  match typeName? ts with
  | none =>
    let n := memberExtent ts
    (node .otherMember (lead ++ leaf keyword :: (ts.take n).map leaf), ts.drop n)
  | some (type, rest) =>
    let n := qualifierExtent rest
    let fields :=
      let (names, after) := declarators rest
      let declaration := node .variableDeclaration (type :: names)
      let (close, after) :=
        if nextIs .semicolon after then optional .semicolon after
        else
          let m := memberExtent after
          ((after.take m).map leaf, after.drop m)
      (node .eventFieldDeclaration (lead ++ leaf keyword :: declaration :: close), after)
    match rest.drop n with
    | name :: opening :: after =>
      if name.kind = .ident && opening.kind = .lbrace then
        let (list, after) := accessorList opening after
        (node .eventDeclaration
          (lead ++ leaf keyword :: type :: qualifier n rest ++ [leaf name, list]), after)
      else fields
    | _ => fields

/-! ## Methods -/

def parameterModifiers : List String :=
  ["ref", "out", "in", "params", "scoped"]

def parameterModifierExtent : List Token → Nat
  | [] => 0
  | t :: ts =>
    if t.kind = .keyword .thisKw || t.isWord parameterModifiers then 1 + parameterModifierExtent ts
    else 0

/-- The type and name of a parameter, if both stand first. -/
def typedName (ts : List Token) : List Tree × List Token :=
  match typeName? ts with
  | some (type, name :: rest) => if name.kind = .ident then ([type, leaf name], rest) else ([], ts)
  | _ => ([], ts)

/-- One parameter up to a comma or a closing bracket. Nothing stands for an empty one. -/
def parameter (ts : List Token) : List Tree × List Token :=
  let (attrs, rest) := attributes ts
  let n := parameterModifierExtent rest
  let (named, after) := typedName (rest.drop n)
  let m := expressionExtent (· = .comma) 0 after
  match attrs ++ (rest.take n).map leaf ++ named ++ expression (after.take m) with
  | [] => ([], after.drop m)
  | parts => ([node .parameter parts], after.drop m)

/-- Parameters with commas between them, up to the closing parenthesis. -/
def parameters (ts : List Token) : List Tree × List Token :=
  if ts.isEmpty || nextIs .rparen ts then ([], ts)
  else
    let (first, rest) := parameter ts
    match rest with
    | [] => (first, [])
    | comma :: after =>
      if comma.kind = .comma ∧ after.length < ts.length then
        let (more, after) := parameters after
        (first ++ leaf comma :: more, after)
      else (first, rest)
termination_by ts.length

def parameterList (opening : Token) (rest : List Token) : Tree × List Token :=
  let (inner, after) := parameters rest
  let (close, after) := optional .rparen after
  (node .parameterList (leaf opening :: inner ++ close), after)

/-- How many tokens it takes to close `depth` open angle brackets; all of them if they are never
closed. -/
def angleExtent : Nat → List Token → Nat
  | _, [] => 0
  | 0, _ :: _ => 0
  | depth + 1, t :: ts =>
    1 + angleExtent (if t.kind = .lt then depth + 2 else if t.kind = .gt then depth else depth + 1)
      ts

/-- A parenthesis follows, directly or after a list of type parameters. -/
def opensParameters (ts : List Token) : Bool :=
  if nextIs .lt ts then nextIs .lparen (ts.drop (1 + angleExtent 1 ts.tail)) else nextIs .lparen ts

/-- The type parameters of a method: everything up to the first parenthesis. -/
def typeParameters (ts : List Token) : List Tree × List Token :=
  if nextIs .lt ts then
    let params := ts.takeWhile (·.kind ≠ .lparen)
    ([node .typeParameterList (params.map leaf)], ts.dropWhile (·.kind ≠ .lparen))
  else ([], ts)

/-- What may stand between the parameters of a method and its body. -/
def isConstraintToken (t : Token) : Bool :=
  t.kind ≠ .lbrace && t.kind ≠ .fatArrow && t.kind ≠ .semicolon && t.kind ≠ .rbrace

def methodRest (ts : List Token) : List Tree × List Token :=
  match ts with
  | [] => ([], [])
  | opening :: rest =>
    let (list, after) := parameterList opening rest
    let (inner, rest) := body (after.dropWhile isConstraintToken)
    (list :: (after.takeWhile isConstraintToken).map leaf ++ inner, rest)

/-- The parts of a method from its return type on, if these tokens start one: a type, a name with
or without a qualifier, and parameters. -/
def method? (ts : List Token) : Option (List Tree × List Token) :=
  match typeName? ts with
  | none => none
  | some (type, rest) =>
    let n := qualifierExtent rest
    match rest.drop n with
    | [] => none
    | name :: after =>
      if name.kind = .ident && opensParameters after then
        let (params, after) := typeParameters after
        let (inner, after) := methodRest after
        some (type :: qualifier n rest ++ leaf name :: params ++ inner, after)
      else none

end EventLint.Tree
