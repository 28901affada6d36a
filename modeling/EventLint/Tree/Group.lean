import EventLint.Tree.Basic

/-!
# Runs of tokens

Parts of a declaration that are kept as they are: bracketed groups, attribute lists, modifiers and
members or statements without structure of their own. Each run is given by the number of tokens it
takes.
-/

namespace EventLint.Tree

/-- How many tokens it takes to close `depth` open brackets of any shape; all of them if they are
never closed. -/
def closingExtent : Nat → List Token → Nat
  | _, [] => 0
  | 0, _ :: _ => 0
  | depth + 1, t :: ts =>
    1 + closingExtent
      (if t.kind.opens then depth + 2 else if t.kind.closes then depth else depth + 1) ts

/-- The next token if it is of kind `k`. -/
def optional (k : TokenKind) : List Token → List Tree × List Token
  | [] => ([], [])
  | t :: ts => if t.kind = k then ([leaf t], ts) else ([], t :: ts)

def nextIs (k : TokenKind) (ts : List Token) : Bool :=
  ts.head?.any (·.kind = k)

/-- The attribute lists that stand first. -/
def attributes (ts : List Token) : List Tree × List Token :=
  match ts with
  | [] => ([], [])
  | t :: rest =>
    if t.kind = .lbracket then
      let n := closingExtent 1 rest
      let (more, after) := attributes (rest.drop n)
      (node .attributeList ((t :: rest.take n).map leaf) :: more, after)
    else ([], ts)
termination_by ts.length

/-- Words that are modifiers only where another word follows. -/
def contextualModifiers : List String :=
  ["partial", "async", "required", "file"]

def modifierExtent : List Token → Nat
  | [] => 0
  | t :: ts =>
    if t.kind.isModifier ||
        (t.isWord contextualModifiers &&
          ts.head?.any fun next => next.kind = .ident || next.kind.isKeyword) then
      1 + modifierExtent ts
    else 0

/-- The modifiers that stand first, as one list if there are any. -/
def modifiers (ts : List Token) : List Tree × List Token :=
  match modifierExtent ts with
  | 0 => ([], ts)
  | n + 1 => ([node .modifierList ((ts.take (n + 1)).map leaf)], ts.drop (n + 1))

/-- What may stand in front of any declaration: attribute lists, then modifiers. -/
def leading (ts : List Token) : List Tree × List Token :=
  let (attrs, rest) := attributes ts
  let (mods, rest) := modifiers rest
  (attrs ++ mods, rest)

theorem attributes_rest_le (ts : List Token) : (attributes ts).2.length ≤ ts.length := by
  fun_induction attributes ts with
  | case1 => simp
  | case2 t rest _ n more after he ih =>
    simp only [he, List.length_drop, List.length_cons] at ih ⊢
    omega
  | case3 => simp

theorem modifiers_rest_le (ts : List Token) : (modifiers ts).2.length ≤ ts.length := by
  unfold modifiers
  split <;> simp

theorem leading_rest_le (ts : List Token) : (leading ts).2.length ≤ ts.length :=
  Nat.le_trans (modifiers_rest_le (attributes ts).2) (attributes_rest_le ts)

/-- A run up to a semicolon or up to the end of a braced group, whichever comes first, and in
front of a closing brace at the latest. After a group it goes on if `continues` accepts the next
token, and it takes a semicolon that follows at once. -/
def opaqueExtent (continues : Token → Bool) (ts : List Token) : Nat :=
  match ts with
  | [] => 0
  | t :: rest =>
    match t.kind with
    | .semicolon => 1
    | .rbrace => 0
    | .lparen | .lbracket =>
      let n := closingExtent 1 rest
      1 + n + opaqueExtent continues (rest.drop n)
    | .lbrace =>
      let n := closingExtent 1 rest
      if nextIs .semicolon (rest.drop n) then 1 + n + 1
      else if (rest.drop n).head?.any continues then 1 + n + opaqueExtent continues (rest.drop n)
      else 1 + n
    | _ => 1 + opaqueExtent continues rest
termination_by ts.length

/-- The rest of a member without structure of its own; an initializer may follow its braces. -/
def memberExtent (ts : List Token) : Nat :=
  opaqueExtent (·.kind = .eq) ts

/-- How many tokens form the pairs of an identifier and a point that stand first. -/
def qualifierExtent : List Token → Nat
  | a :: b :: ts => if a.kind = .ident && b.kind = .dot then 2 + qualifierExtent ts else 0
  | _ => 0

/-- The qualifier in front of the name of an explicitly implemented member. -/
def qualifier (n : Nat) (ts : List Token) : List Tree :=
  if n = 0 then [] else [node .explicitInterfaceSpecifier ((ts.take n).map leaf)]

end EventLint.Tree
