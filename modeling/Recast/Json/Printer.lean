import Recast.Json.Basic

/-!
# Printing JSON

Two layouts of one value: `Json.render` without any blank, and `Json.renderIndented`, one item or
member a line with two blanks for each level. Only the quote, the backslash and the control
characters are escaped.
-/

set_option autoImplicit false

namespace Recast.Json

/-- A hexadecimal digit in lower case. -/
def hexDigit (n : Nat) : Char :=
  if n < 10 then Char.ofNat ('0'.toNat + n) else Char.ofNat ('a'.toNat + (n - 10))

/-- How a character is written inside a string. -/
def escape (c : Char) : List Char :=
  if c = '"' then ['\\', '"']
  else if c = '\\' then ['\\', '\\']
  else if c = '\x08' then ['\\', 'b']
  else if c = '\x0c' then ['\\', 'f']
  else if c = '\n' then ['\\', 'n']
  else if c = '\r' then ['\\', 'r']
  else if c = '\t' then ['\\', 't']
  else if c.toNat < 0x20 then
    ['\\', 'u', '0', '0', hexDigit (c.toNat / 16), hexDigit (c.toNat % 16)]
  else [c]

/-- A string with its quotes. -/
def quote (s : String) : String :=
  "\"" ++ String.ofList (s.toList.flatMap escape) ++ "\""

/-- A number, with a power of ten when it has one. -/
def renderNumber (d : Decimal) : String :=
  if d.exponent = 0 then toString d.mantissa
  else toString d.mantissa ++ "e" ++ toString d.exponent

mutual

/-- A value without any blank. -/
def render : Json → String
  | .null => "null"
  | .bool true => "true"
  | .bool false => "false"
  | .num value => renderNumber value
  | .str value => quote value
  | .arr items => "[" ++ ",".intercalate (renderItems items) ++ "]"
  | .obj members => "\x7b" ++ ",".intercalate (renderMembers members) ++ "\x7d"
  | .unusable => "null"

/-- The items of an array. -/
def renderItems : List Json → List String
  | [] => []
  | item :: items => item.render :: renderItems items

/-- The members of an object. -/
def renderMembers : List (String × Json) → List String
  | [] => []
  | (key, value) :: members => (quote key ++ ":" ++ value.render) :: renderMembers members

end

/-- The blanks in front of a line. -/
def indent (level : Nat) : String :=
  String.ofList (List.replicate (2 * level) ' ')

/-- The lines of a container between its two brackets. -/
def block (level : Nat) (first last : String) (lines : List String) : String :=
  match lines with
  | [] => first ++ last
  | _ =>
    first ++ "\n" ++ ",\n".intercalate (lines.map (indent (level + 1) ++ ·)) ++ "\n"
      ++ indent level ++ last

mutual

/-- A value with one item or member a line, inside `level` containers. -/
def renderAt (level : Nat) : Json → String
  | .arr items => block level "[" "]" (renderItemsAt (level + 1) items)
  | .obj members => block level "\x7b" "\x7d" (renderMembersAt (level + 1) members)
  | value => value.render

/-- The items of an array inside `level` containers. -/
def renderItemsAt (level : Nat) : List Json → List String
  | [] => []
  | item :: items => item.renderAt level :: renderItemsAt level items

/-- The members of an object inside `level` containers. -/
def renderMembersAt (level : Nat) : List (String × Json) → List String
  | [] => []
  | (key, value) :: members =>
    (quote key ++ ": " ++ value.renderAt level) :: renderMembersAt level members

end

/-- A value with one item or member a line. -/
def renderIndented (value : Json) : String :=
  value.renderAt 0

end Recast.Json
