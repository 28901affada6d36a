import EventLint.Tree.Group

/-!
# Types

A type is a tuple or a chain of names, each with type arguments or without, followed by marks for
nullable types and arrays. Type arguments that are not closed are none: the name then stands alone
and the tokens after it are left for others.
-/

namespace EventLint.Tree

/-- The `?` and `[]` marks that follow a type. -/
def typeMarks (type : Tree) (ts : List Token) : Tree × List Token :=
  match ts with
  | [] => (type, [])
  | t :: rest =>
    if t.kind = .question then typeMarks (node .nullableType [type, leaf t]) rest
    else if t.kind = .lbracket && (nextIs .rbracket rest || nextIs .comma rest) then
      let n := closingExtent 1 rest
      typeMarks (node .arrayType (type :: (t :: rest.take n).map leaf)) (rest.drop n)
    else (type, ts)
termination_by ts.length

/-- A point or `::` between two names. -/
def joinsNames (t : Token) : Bool :=
  t.kind = .dot || t.kind = .colonColon

/-- A name, qualified by what stands in front of it. -/
def qualified (left : Option (Tree × Token)) (name : Tree) : Tree :=
  match left with
  | none => name
  | some (owner, joint) => node .qualifiedName [owner, leaf joint, name]

theorem length_lt_of_drop_eq {n : Nat} {ts after : List Token} {a b : Token}
    (h : ts.drop n = a :: b :: after) : after.length < ts.length := by
  have hlen := congrArg List.length h
  simp only [List.length_drop, List.length_cons] at hlen
  omega

mutual

def typeName? (ts : List Token) : Option (Tree × List Token) :=
  match ts with
  | [] => none
  | t :: rest =>
    if t.kind = .ident then
      let (name, after) := nameChain none t rest
      some (typeMarks name after)
    else if t.kind = .lparen then
      let n := closingExtent 1 rest
      let tuple := node .tupleType ((t :: rest.take n).map leaf)
      match h : rest.drop n with
      | joint :: first :: after =>
        have : after.length < rest.length := length_lt_of_drop_eq h
        if joinsNames joint && first.kind = .ident then
          let (name, after) := nameChain (some (tuple, joint)) first after
          some (typeMarks name after)
        else some (typeMarks tuple (rest.drop n))
      | after => some (typeMarks tuple after)
    else none
termination_by 3 * ts.length

/-- A name that starts with the identifier `first`, and the names joined to it. -/
def nameChain (left : Option (Tree × Token)) (first : Token) (ts : List Token) :
    Tree × List Token :=
  let (name, rest) := simpleName first ts
  match rest with
  | joint :: next :: after =>
    if joinsNames joint ∧ next.kind = .ident ∧ after.length < ts.length then
      nameChain (some (qualified left name, joint)) next after
    else (qualified left name, rest)
  | _ => (qualified left name, rest)
termination_by 3 * ts.length + 2

/-- The identifier `name`, with type arguments if a complete list of them follows. -/
def simpleName (name : Token) (ts : List Token) : Tree × List Token :=
  match ts with
  | [] => (node .identifierName [leaf name], [])
  | t :: rest =>
    if t.kind = .lt then
      match typeArguments? rest with
      | some (arguments, after) =>
        (node .genericName [leaf name, node .typeArgumentList (leaf t :: arguments)], after)
      | none => (node .identifierName [leaf name], ts)
    else (node .identifierName [leaf name], ts)
termination_by 3 * ts.length + 1

/-- Types with commas between them, through the closing angle bracket. -/
def typeArguments? (ts : List Token) : Option (List Tree × List Token) :=
  match typeName? ts with
  | none => none
  | some (_, []) => none
  | some (type, t :: after) =>
    if t.kind = .gt then some ([type, leaf t], after)
    else if t.kind = .comma ∧ after.length < ts.length then
      match typeArguments? after with
      | some (more, after) => some (type :: leaf t :: more, after)
      | none => none
    else none
termination_by 3 * ts.length + 1

end

end EventLint.Tree
