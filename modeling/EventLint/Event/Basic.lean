import EventLint.Text.Blank
import EventLint.Tree.Basic

/-!
# Events

What a member that declares an event says: its name, its type, its modifiers, and either the names
declared with it or its accessors.
-/

namespace EventLint

/-- The type of the delegates that an event takes. -/
inductive ElementType where
  /-- A generic type with one argument, such as `EventHandler<MyArgs>`. -/
  | generic (name argument : Text)
  /-- Any other type, as it is written. -/
  | other (text : Text)
deriving DecidableEq, Repr

namespace ElementType

/-- The generic name at the end of a type, qualified or not. -/
def genericName? (type : Tree) : Option Tree :=
  match type.nodeKind? with
  | some .genericName => some type
  | some .qualifiedName => type.childNodes.getLast?.filter (Tree.isOf .genericName)
  | _ => none

def singleArgument? (type : Tree) : Option Tree := do
  let name ← genericName? type
  let arguments ← name.childNode? .typeArgumentList
  match arguments.childNodes with
  | [argument] => some argument
  | _ => none

def ofTree (type : Tree) : ElementType :=
  match singleArgument? type with
  | some argument => .generic (Text.trimEnd (type.text.takeWhile (· ≠ '<'))) argument.text
  | none => .other type.text

end ElementType

inductive AccessorKind where
  | add
  | remove
deriving DecidableEq, Repr

/-- The contextual keyword that starts an accessor. -/
def AccessorKind.keyword : AccessorKind → String
  | add => "add"
  | remove => "remove"

structure Accessor where
  kind : AccessorKind
  node : Tree
deriving Repr

inductive Statement where
  | assignment (left : Tree) (op : TokenKind) (right : Tree)
  | other (node : Tree)
deriving Repr

namespace Statement

/-- An assignment has an operator and an operand on both sides of it. -/
def ofExpression (e : Tree) : Statement :=
  if e.isOf .assignmentExpression then
    match e.childNodes, (e.childTokens.map (·.kind)).find? TokenKind.isAssignment with
    | left :: right :: _, some op => .assignment left op right
    | _, _ => .other e
  else .other e

def ofTree (s : Tree) : Statement :=
  if s.isOf .expressionStatement then
    match s.childNodes with
    | e :: _ => ofExpression e
    | [] => .other s
  else .other s

end Statement

/-- The statements of an accessor, in order. The expression after an arrow counts as one. -/
def Accessor.statements (a : Accessor) : List Statement :=
  match a.node.childNode? .block with
  | some block => block.childNodes.map Statement.ofTree
  | none =>
    match a.node.childNode? .arrowExpressionClause with
    | some clause => (clause.childNodes.take 1).map Statement.ofExpression
    | none => []

inductive EventShape where
  /-- Names with commas between them, as for a field. -/
  | fieldLike (declarators : List Tree)
  /-- One name and its accessors. -/
  | accessorLike (add remove : Option Accessor)
deriving Repr

structure Event where
  node : Tree
  /-- The name, the first one if several are declared. -/
  nameToken : Token
  elementType : ElementType
  /-- The modifiers, in order. -/
  modifiers : List Token
  shape : EventShape
deriving Repr

namespace Event

def name (e : Event) : Text :=
  e.nameToken.text

def modifiersOf (member : Tree) : List Token :=
  match member.childNode? .modifierList with
  | some list => list.childTokens
  | none => []

/-- The type that a declaration starts with. -/
def typeOf? (declaration : Tree) : Option Tree :=
  declaration.childNodes.find? fun t => t.nodeKind?.any NodeKind.isType

/-- The first accessor with the keyword of `kind`. -/
def accessorOf? (list : Tree) (kind : AccessorKind) : Option Accessor :=
  (list.childNodes.find? fun a =>
    a.isOf .accessorDeclaration &&
      (a.childToken? .ident).any fun t => t.text = kind.keyword.toList).map (⟨kind, ·⟩)

def ofField? (member : Tree) : Option Event := do
  let declaration ← member.childNode? .variableDeclaration
  let type ← typeOf? declaration
  let declarators := declaration.childNodes.filter (Tree.isOf .variableDeclarator)
  let first ← declarators.head?
  let name ← first.childToken? .ident
  return {
    node := member
    nameToken := name
    elementType := .ofTree type
    modifiers := modifiersOf member
    shape := .fieldLike declarators }

def ofAccessors? (member : Tree) : Option Event := do
  let type ← typeOf? member
  let name ← member.childToken? .ident
  let list ← member.childNode? .accessorList
  return {
    node := member
    nameToken := name
    elementType := .ofTree type
    modifiers := modifiersOf member
    shape := .accessorLike (accessorOf? list .add) (accessorOf? list .remove) }

def ofTree? (t : Tree) : Option Event :=
  match t.nodeKind? with
  | some .eventFieldDeclaration => ofField? t
  | some .eventDeclaration => ofAccessors? t
  | _ => none

/-- The first modifier of kind `k`. -/
def modifier? (e : Event) (k : TokenKind) : Option Token :=
  e.modifiers.find? (·.kind = k)

def isVirtual (e : Event) : Bool :=
  (e.modifier? (.keyword .virtualKw)).isSome

def declaratorCount (e : Event) : Nat :=
  match e.shape with
  | .fieldLike declarators => declarators.length
  | .accessorLike _ _ => 1

end Event

end EventLint
