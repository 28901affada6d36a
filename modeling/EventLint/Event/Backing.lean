import EventLint.Event.Basic

/-!
# Backing fields

The delegate that raising an event invokes. A field-like event is its own backing field. For
accessors it is what the first `x += value` or `this.x += value` of the `add` accessor assigns to.
-/

namespace EventLint

inductive BackingError where
  | missingAddAccessor (event : Text)
  | noBackingAssignment (event : Text)
deriving DecidableEq, Repr

def BackingError.message : BackingError → String
  | missingAddAccessor event => "event '" ++ String.ofList event ++ "' has no add accessor"
  | noBackingAssignment event =>
    "no `+= value` assignment in the add accessor of '" ++ String.ofList event ++ "'"

namespace Backing

/-- The parameter of an accessor. -/
def isValue (t : Tree) : Bool :=
  t.isOf .identifierName && t.text = "value".toList

/-- The field that an assignment to `left` changes: `x` or `this.x`. -/
def assignedName? (left : Tree) : Option Text :=
  match left.nodeKind?, left.leaves with
  | some .identifierName, [name] => some name.text
  | some .memberAccessExpression, [this, _, name] =>
    if this.kind = .keyword .thisKw then some name.text else none
  | _, _ => none

/-- The field that a statement adds the value to. -/
def ofStatement? : Statement → Option Text
  | .assignment left .plusEq right => if isValue right then assignedName? left else none
  | _ => none

end Backing

/-- The field that holds the delegates of an event. -/
def Event.backing (e : Event) : Except BackingError Text :=
  match e.shape with
  | .fieldLike _ => .ok e.name
  | .accessorLike none _ => .error (.missingAddAccessor e.name)
  | .accessorLike (some add) _ =>
    match add.statements.findSome? Backing.ofStatement? with
    | some field => .ok field
    | none => .error (.noBackingAssignment e.name)

end EventLint
