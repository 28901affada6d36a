import EventLint.Text.Basic

/-!
# JSON

Values and their text, with two blanks for each level.
-/

namespace EventLint

inductive JsonValue where
  | string (text : String)
  | number (value : Nat)
  | boolean (value : Bool)
  | array (items : List JsonValue)
  | object (fields : List (String × JsonValue))

namespace JsonValue

def hexDigit (n : Nat) : Char :=
  Nat.digitChar n

/-- The text of a character between quotes. -/
def escaped (c : Char) : Text :=
  if c = '"' then ['\\', '"']
  else if c = '\\' then ['\\', '\\']
  else if c = '\x08' then ['\\', 'b']
  else if c = '\x0c' then ['\\', 'f']
  else if c = '\n' then ['\\', 'n']
  else if c = '\r' then ['\\', 'r']
  else if c = '\t' then ['\\', 't']
  else if c.toNat < 0x20 then
    ['\\', 'u', '0', '0', hexDigit (c.toNat / 16), hexDigit (c.toNat % 16)]
  else [c]

def quoted (text : String) : String :=
  "\"" ++ String.ofList (text.toList.flatMap escaped) ++ "\""

def indent (level : Nat) : String :=
  String.ofList (List.replicate (2 * level) ' ')

def bracketed (level : Nat) (left right : String) (parts : List String) : String :=
  if parts.isEmpty then left ++ right
  else
    left ++ "\n" ++ String.intercalate ",\n" (parts.map (indent (level + 1) ++ ·)) ++ "\n" ++
      indent level ++ right

mutual

def render (level : Nat) : JsonValue → String
  | string text => quoted text
  | number n => toString n
  | boolean b => if b then "true" else "false"
  | array items => bracketed level "[" "]" (renderItems (level + 1) items)
  | object fields => bracketed level "\x7b" "\x7d" (renderFields (level + 1) fields)

def renderItems (level : Nat) : List JsonValue → List String
  | [] => []
  | v :: items => v.render level :: renderItems level items

def renderFields (level : Nat) : List (String × JsonValue) → List String
  | [] => []
  | (key, v) :: fields => (quoted key ++ ": " ++ v.render level) :: renderFields level fields

end

def pretty (v : JsonValue) : String :=
  v.render 0

end JsonValue

end EventLint
