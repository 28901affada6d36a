import EventLint.Document
import EventLint.Event.Basic
import EventLint.Settings
import EventLint.Suppression

/-!
# Diagnostics

Virtual events are reported, those of interfaces apart. A finding is dropped if its line suppresses
its rule or the settings ignore the rule.
-/

namespace EventLint

/-- What a diagnostic is about: a virtual event of one of the two shapes. -/
inductive Rule where
  | fieldEvent
  | propertyEvent
deriving DecidableEq, Repr

namespace Rule

def all : List Rule :=
  [fieldEvent, propertyEvent]

def id : Rule → String
  | fieldEvent => "EVS-V001"
  | propertyEvent => "EVS-V002"

def name : Rule → String
  | fieldEvent => "FieldEventOverridable"
  | propertyEvent => "PropertyEventOverridable"

def category : String :=
  "Design Practices"

def severity : String :=
  "warning"

def nodeKind : Rule → NodeKind
  | fieldEvent => .eventFieldDeclaration
  | propertyEvent => .eventDeclaration

def ofShape : EventShape → Rule
  | .fieldLike _ => fieldEvent
  | .accessorLike _ _ => propertyEvent

end Rule

structure Diagnostic where
  rule : Rule
  message : String
  eventName : Text
  file : String
  line : Nat
  column : Nat
  /-- Where the name of the event stands. -/
  span : Span
deriving DecidableEq, Repr

def Event.diagnostic (e : Event) (messages : Messages) (file : String) (index : LineIndex) :
    Diagnostic where
  rule := .ofShape e.shape
  message := messages.about e.name
  eventName := e.name
  file := file
  line := index.line e.nameToken.start
  column := index.column e.nameToken.start
  span := e.nameToken.span

namespace Tree

mutual

/-- The virtual events of a tree, in order, without those in interfaces. -/
def virtualEvents : Tree → List Event
  | leaf _ => []
  | node k cs =>
    if k.isEvent then ((Event.ofTree? (node k cs)).filter Event.isVirtual).toList
    else if k = .interfaceDeclaration then []
    else virtualEventsAll cs

def virtualEventsAll : List Tree → List Event
  | [] => []
  | c :: cs => c.virtualEvents ++ virtualEventsAll cs

end

end Tree

namespace Document

/-- What is found in a document before anything is suppressed. -/
def findings (d : Document) (messages : Messages) (file : String) : List Diagnostic :=
  d.root.virtualEvents.map fun e => e.diagnostic messages file d.lineIndex

/-- The diagnostics of a document, in the order of the names they stand at. -/
def diagnostics (d : Document) (settings : Settings) (file : String) : List Diagnostic :=
  let suppressed := Suppression.ofText d.text
  let kept := (d.findings settings.messages file).filter fun f =>
    !suppressed.suppresses f.line f.rule.id.toList && !settings.ignores f.rule.id
  kept.mergeSort fun a b => a.span.start ≤ b.span.start

end Document

end EventLint
