import EventLint.Diagnostic
import EventLint.Event.Backing
import EventLint.Fix.Modifier
import EventLint.Fix.RaiseMethod

/-!
# Fixes

A diagnostic can be fixed by removing `virtual`, or by removing it and adding a method that raises
the event. A fix is planned on one document and performed on another, which may have changed since:
it names the declaration by where it starts and by its kind, and fails if it is no longer there.
-/

namespace EventLint

inductive FixKind where
  | removeModifier
  | extractRaiseMethod
deriving DecidableEq, Repr

namespace FixKind

def all : List FixKind :=
  [removeModifier, extractRaiseMethod]

/-- The name of a fix on the command line. -/
def name : FixKind → String
  | removeModifier => "remove-modifier"
  | extractRaiseMethod => "extract-raise-method"

def ofName? (s : String) : Option FixKind :=
  all.find? (·.name = s)

end FixKind

inductive FixError where
  | declarationNotFound (offset : Nat)
  | modifierMissing (modifier : String)
  | unresolved (cause : BackingError)
  | unsupportedElementType (event type : Text)
  | multipleDeclarators (event : Text) (count : Nat)
  | refused (cause : EditError)
deriving DecidableEq, Repr

def FixError.message : FixError → String
  | declarationNotFound offset => s!"no event declaration found at byte {offset}"
  | modifierMissing modifier => s!"declaration has no `{modifier}` modifier"
  | unresolved cause => cause.message
  | unsupportedElementType event type =>
    "event '" ++ String.ofList event ++ "' has element type `" ++ String.ofList type ++
      "`, expected a generic with one type argument"
  | multipleDeclarators event count =>
    "'" ++ String.ofList event ++ "' is declared together with " ++ toString (count - 1) ++
      " other event(s)"
  | refused cause => cause.message

structure Target where
  start : Nat
  kind : NodeKind
deriving DecidableEq, Repr

structure FixAction where
  title : String
  target : Target
  /-- The method to add, if one is. -/
  method : Option RaiseMethod
deriving DecidableEq, Repr

namespace FixAction

def kind (a : FixAction) : FixKind :=
  match a.method with
  | none => .removeModifier
  | some _ => .extractRaiseMethod

end FixAction

/-! ## Performing a fix -/

/-- The declaration that starts where the target does and is of its kind. -/
def Target.locate (target : Target) (d : Document) : Except FixError Tree :=
  match d.ancestor? target.start fun t =>
      t.isOf target.kind && (d.spanOf t).start = target.start with
  | some t => .ok t
  | none => .error (.declarationNotFound target.start)

/-- A document without the first modifier of kind `k` of a member. -/
def Document.removeModifier (d : Document) (member : Tree) (k : TokenKind) :
    Except FixError Document :=
  match Modifier.removal? d member k with
  | some edit => (d.withEdits [edit]).mapError .refused
  | none => .error (.modifierMissing (k.keywordText?.getD "modifier"))

/-- Where text goes that follows a member: after the comment at the end of its line if there is
one, and right after the member otherwise. -/
def Document.insertionPoint (d : Document) (member : Tree) : Nat :=
  let stop := (d.spanOf member).stop
  let line := (Text.dropBytes stop d.text).takeWhile (· ≠ '\n')
  if "//".toList.isPrefixOf (Text.trimStart line) then
    stop + Text.byteSize line - (if line.getLast? = some '\r' then 1 else 0)
  else stop

/-- The edit that adds a method after a member, under the indentation of the line of byte `start`
and with an empty line between. -/
def Document.addition (d : Document) (member : Tree) (start : Nat) (method : RaiseMethod) : Edit :=
  .insert (d.insertionPoint member)
    (d.newline ++ d.newline ++ method.render (d.indentAt start) d.newline)

namespace FixAction

def removeVirtual (target : Target) (d : Document) : Except FixError Document := do
  let member ← target.locate d
  d.removeModifier member (.keyword .virtualKw)

/-- Performs a fix. A method is added first; the declaration is then looked up again. -/
def apply (a : FixAction) (d : Document) : Except FixError Document :=
  match a.method with
  | none => removeVirtual a.target d
  | some method => do
    let member ← a.target.locate d
    let extended ←
      (d.withEdits [d.addition member a.target.start method]).mapError FixError.refused
    removeVirtual a.target extended

end FixAction

/-! ## Planning a fix -/

/-- The declaration and event that a rule reports at byte `offset`. -/
def Document.virtualEventAt (d : Document) (rule : Rule) (offset : Nat) :
    Except FixError (Tree × Event) :=
  match d.ancestor? offset (Tree.isOf rule.nodeKind) with
  | none => .error (.declarationNotFound offset)
  | some member =>
    match Event.ofTree? member with
    | none => .error (.declarationNotFound offset)
    | some event =>
      if event.isVirtual then .ok (member, event) else .error (.modifierMissing "virtual")

def RaiseMethod.build (event backing : Text) (type : ElementType) : Except FixError RaiseMethod :=
  match RaiseMethod.ofElementType? event backing type with
  | some method => .ok method
  | none =>
    match type with
    | .generic name _ => .error (.unsupportedElementType event name)
    | .other text => .error (.unsupportedElementType event text)

/-- The method that raises an event: one name, a backing field and a type with one argument. -/
def Event.raiseMethod (e : Event) : Except FixError RaiseMethod := do
  if 1 < e.declaratorCount then
    throw (.multipleDeclarators e.name e.declaratorCount)
  let backing ← e.backing.mapError FixError.unresolved
  RaiseMethod.build e.name backing e.elementType

def Document.planAt (d : Document) (messages : Messages) (rule : Rule) (offset : Nat)
    (kind : FixKind) : Except FixError FixAction := do
  let (member, event) ← d.virtualEventAt rule offset
  let target : Target := ⟨(d.spanOf member).start, rule.nodeKind⟩
  match kind with
  | .removeModifier => return ⟨messages.removeModifierTitle, target, none⟩
  | .extractRaiseMethod =>
    let method ← event.raiseMethod
    return ⟨messages.extractRaiseMethodTitle, target, some method⟩

def Document.plan (d : Document) (messages : Messages) (f : Diagnostic) (kind : FixKind) :
    Except FixError FixAction :=
  d.planAt messages f.rule f.span.start kind

def Document.fixes (d : Document) (messages : Messages) (f : Diagnostic) : List FixAction :=
  FixKind.all.filterMap fun kind => (d.plan messages f kind).toOption

end EventLint
