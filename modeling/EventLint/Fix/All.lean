import EventLint.Fix.Action

/-!
# Fixing everything

One kind of fix is performed for every diagnostic of a text, from the last to the first, so that
the places of those still to come do not move.
-/

namespace EventLint

structure AppliedFix where
  file : String
  line : Nat
  eventName : Text
  title : String
deriving DecidableEq, Repr

structure SkippedFix where
  file : String
  line : Nat
  eventName : Text
  reason : String
deriving DecidableEq, Repr

/-- A text after its fixes, which are listed in the order they were tried. -/
structure FixOutcome where
  text : Text
  applied : List AppliedFix
  skipped : List SkippedFix
deriving DecidableEq, Repr

namespace FixOutcome

structure Progress where
  document : Document
  applied : List AppliedFix := []
  skipped : List SkippedFix := []

/-- Plans and performs a fix on the same document. -/
def tryFix (d : Document) (messages : Messages) (kind : FixKind) (f : Diagnostic) :
    Except FixError (FixAction × Document) := do
  let action ← d.plan messages f kind
  let next ← action.apply d
  return (action, next)

/-- Fixes one diagnostic, or notes why it cannot be fixed. -/
def Progress.step (messages : Messages) (kind : FixKind) (p : Progress) (f : Diagnostic) :
    Progress :=
  match tryFix p.document messages kind f with
  | .ok (action, next) =>
    { p with
      document := next
      applied := p.applied ++ [⟨f.file, f.line, f.eventName, action.title⟩] }
  | .error e =>
    { p with skipped := p.skipped ++ [⟨f.file, f.line, f.eventName, e.message⟩] }

end FixOutcome

def fixText (settings : Settings) (file : String) (kind : FixKind) (text : Text) : FixOutcome :=
  let d := Document.ofText text
  let last := (d.diagnostics settings file).reverse.foldl
    (FixOutcome.Progress.step settings.messages kind) { document := d }
  ⟨last.document.text, last.applied, last.skipped⟩

end EventLint
