import EventLint.Fix.All

/-!
# Sessions

A session holds a document with what was found in it and what was planned for it. Findings and
plans stay when the document changes, so they may be out of date.
-/

namespace EventLint

structure Session where
  document : Document
  settings : Settings
  file : String
  found : List Diagnostic := []
  planned : List FixAction := []

namespace Session

inductive Step where
  | analyze
  /-- Plan a fix for a diagnostic found before. -/
  | plan (diagnostic : Nat) (kind : FixKind)
  /-- Plan a fix for what a rule would report at an offset. -/
  | planAt (offset : Nat) (rule : Rule) (kind : FixKind)
  /-- Plan all fixes for a diagnostic found before. -/
  | list (diagnostic : Nat)
  | apply (action : Nat)
  | edit (edits : List Edit)
  /-- Remove a modifier from the member at an offset. -/
  | removeModifier (offset : Nat) (kind : TokenKind)
  | fixAll (kind : FixKind)
  | setText (text : Text)

inductive Reply where
  | diagnostics (found : List Diagnostic)
  | action (planned : Except FixError FixAction)
  | actions (planned : List FixAction)
  | text (result : Except FixError Text)
  | edited (result : Except EditError Text)
  | noMember
  | removal (node : Tree) (eof : Nat) (edit : Option Edit) (result : Except FixError Text)
  | outcome (result : FixOutcome)
  /-- Nothing was found or planned under this number. -/
  | noSuchIndex

def start (settings : Settings) (file : String) (text : Text) : Session :=
  { document := .ofText text, settings, file }

/-- The members that modifiers can be removed from. -/
def isMember (t : Tree) : Bool :=
  t.nodeKind?.any fun k =>
    k.isEvent || k = .methodDeclaration || k = .otherMember || k.isTypeDeclaration

def planStep (s : Session) (planned : Except FixError FixAction) : Reply × Session :=
  match planned with
  | .ok action => (.action (.ok action), { s with planned := s.planned ++ [action] })
  | .error e => (.action (.error e), s)

def step (s : Session) : Step → Reply × Session
  | .analyze =>
    let found := s.document.diagnostics s.settings s.file
    (.diagnostics found, { s with found })
  | .plan i kind =>
    match s.found[i]? with
    | none => (.noSuchIndex, s)
    | some f => s.planStep (s.document.plan s.settings.messages f kind)
  | .planAt offset rule kind =>
    s.planStep (s.document.planAt s.settings.messages rule offset kind)
  | .list i =>
    match s.found[i]? with
    | none => (.noSuchIndex, s)
    | some f =>
      let actions := s.document.fixes s.settings.messages f
      (.actions actions, { s with planned := s.planned ++ actions })
  | .apply i =>
    match s.planned[i]? with
    | none => (.noSuchIndex, s)
    | some action =>
      match action.apply s.document with
      | .ok next => (.text (.ok next.text), { s with document := next })
      | .error e => (.text (.error e), s)
  | .edit edits =>
    match s.document.withEdits edits with
    | .ok next => (.edited (.ok next.text), { s with document := next })
    | .error e => (.edited (.error e), s)
  | .removeModifier offset k =>
    match s.document.ancestor? offset isMember with
    | none => (.noMember, s)
    | some member =>
      let edit := Modifier.removal? s.document member k
      match s.document.removeModifier member k with
      | .ok next =>
        (.removal member s.document.eof edit (.ok next.text), { s with document := next })
      | .error e => (.removal member s.document.eof edit (.error e), s)
  | .fixAll kind =>
    let outcome := fixText s.settings s.file kind s.document.text
    (.outcome outcome, { s with document := .ofText outcome.text })
  | .setText text => (.text (.ok text), { s with document := .ofText text })

def run (s : Session) : List Step → List Reply
  | [] => []
  | a :: rest =>
    let (reply, next) := s.step a
    reply :: run next rest

end Session

end EventLint
