import EventLint.Event.Basic

/-!
# Raise methods

The method that takes the place of a virtual event: derived classes override it, not the event.
-/

namespace EventLint

structure RaiseMethod where
  name : Text
  /-- The field whose delegates are invoked. -/
  backing : Text
  argumentType : Text
deriving DecidableEq, Repr

namespace RaiseMethod

/-- The name of the method for an event: `Raise` in place of a leading `On`. -/
def nameFor (event : Text) : Text :=
  "Raise".toList ++ (if "On".toList.isPrefixOf event then event.drop 2 else event)

def ofElementType? (event backing : Text) : ElementType → Option RaiseMethod
  | .generic _ argument => some ⟨nameFor event, backing, argument⟩
  | .other _ => none

/-- One step of indentation under a line indented by `indent`. -/
def indentStep (indent : Text) : Text :=
  if indent.head? = some '\t' then ['\t'] else "    ".toList

def lines (m : RaiseMethod) (indent : Text) : List Text :=
  let inner := indent ++ indentStep indent
  [indent ++ "protected virtual ".toList ++ m.argumentType ++ [' '] ++ m.name ++ ['('] ++
     m.argumentType ++ " args)".toList,
   indent ++ ['\x7b'],
   inner ++ m.backing ++ "?.Invoke(this, args);".toList,
   inner ++ "return args;".toList,
   indent ++ ['\x7d']]

/-- The source of the method, without a line break at its end. -/
def render (m : RaiseMethod) (indent newline : Text) : Text :=
  newline.intercalate (m.lines indent)

end RaiseMethod

end EventLint
