import EventLint.Text.Basic

/-!
# Settings

What a configuration file can set: folders, ignored rules, the exit code, and the wording.
-/

namespace EventLint

structure Messages where
  title : String := "Declare only non-virtual events"
  messageFormat : String := "Event '\x7b0\x7d' should not be virtual"
  description : String :=
    "Virtual events invite derived classes to replace the subscription logic of the base class. " ++
      "Raise the event through a protected virtual method instead."
  removeModifierTitle : String := "Remove virtual keyword"
  extractRaiseMethodTitle : String := "Implement Virtual Method to Raise Event"
deriving DecidableEq, Repr

namespace Messages

/-- Puts `name` in place of every `0` in braces. -/
def fill (name : Text) : Text → Text
  | '\x7b' :: '0' :: '\x7d' :: cs => name ++ fill name cs
  | c :: cs => c :: fill name cs
  | [] => []

def about (m : Messages) (name : Text) : String :=
  String.ofList (fill name m.messageFormat.toList)

end Messages

structure Settings where
  excludeFolders : Option (List String) := none
  includeFolders : Option (List String) := none
  /-- Ids of rules that report nothing. -/
  ignore : Option (List String) := none
  failOnFindings : Option Bool := none
  messages : Messages := {}
deriving DecidableEq, Repr

/-- The rule with this id reports nothing. Case does not matter for ASCII letters. -/
def Settings.ignores (s : Settings) (id : String) : Bool :=
  (s.ignore.getD []).any fun other =>
    other.toList.map Char.toLower = id.toList.map Char.toLower

end EventLint
