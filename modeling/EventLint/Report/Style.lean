import EventLint.Text.Basic

/-!
# Styled text

Text for a terminal, between an escape that turns a style on and one that resets it.
-/

namespace EventLint

inductive Color where
  | red
  | green
  | yellow
  | cyan
deriving DecidableEq, Repr

def Color.code : Color → String
  | red => "31"
  | green => "32"
  | yellow => "33"
  | cyan => "36"

structure Style where
  bold : Bool := false
  dim : Bool := false
  underlined : Bool := false
  color : Option Color := none
deriving DecidableEq, Repr

namespace Style

def codes (s : Style) : List String :=
  (if s.bold then ["1"] else []) ++ (if s.dim then ["2"] else []) ++
    (if s.underlined then ["4"] else []) ++ (s.color.map Color.code).toList

def start (s : Style) : String :=
  "\x1b[" ++ String.intercalate ";" s.codes ++ "m"

def reset : String :=
  "\x1b[0m"

/-- Turns the style on again after every reset in a text. -/
def resume (start : Text) : Text → Text
  | '\x1b' :: '[' :: '0' :: 'm' :: cs => reset.toList ++ start ++ resume start cs
  | c :: cs => c :: resume start cs
  | [] => []

def paint (s : Style) (colors : Bool) (text : String) : String :=
  if colors then
    s.start ++ String.ofList (resume s.start.toList text.toList) ++ reset
  else text

end Style

end EventLint
