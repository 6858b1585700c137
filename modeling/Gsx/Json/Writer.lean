import Gsx.Json.Value
import Gsx.Text.Hex
/-!
# Writing JSON

Values are written over several lines, each level indented by two blanks.
Strings are written in printable ASCII: any other character is escaped, one
beyond the basic plane by a surrogate pair.
-/

namespace Gsx.Json

/-- A code unit as an escape. -/
def unitEscape (n : Nat) : List Char :=
  '\\' :: 'u' :: Text.hexDigits 4 n

/-- How a character is written inside a string. -/
def escapedChar (c : Char) : List Char :=
  let n := c.toNat
  if c = '"' then ['\\', '"']
  else if c = '\\' then ['\\', '\\']
  else if c = '\n' then ['\\', 'n']
  else if c = '\r' then ['\\', 'r']
  else if c = '\t' then ['\\', 't']
  else if n = 8 then ['\\', 'b']
  else if n = 12 then ['\\', 'f']
  else if 0x20 ≤ n && n ≤ 0x7E then [c]
  else if n < 0x10000 then unitEscape n
  else unitEscape (0xD800 + (n - 0x10000) / 0x400) ++ unitEscape (0xDC00 + (n - 0x10000) % 0x400)

/-- A string in quotes. -/
def quotedText (s : String) : String :=
  String.ofList ('"' :: (s.toList.flatMap escapedChar ++ ['"']))

/-- A new line at a level. -/
def lineBreak (level : Nat) : String :=
  String.ofList ('\n' :: List.replicate (2 * level) ' ')

mutual

/-- A value as text, its inner lines one level further in. -/
def write (level : Nat) : Json → String
  | .null => "null"
  | .bool true => "true"
  | .bool false => "false"
  | .number text => text
  | .string s => quotedText s
  | .array [] => "[]"
  | .array (item :: items) =>
    "[" ++ lineBreak (level + 1) ++ write (level + 1) item ++ writeItems (level + 1) items
      ++ lineBreak level ++ "]"
  | .object [] => "\x7b\x7d"
  | .object (m :: members) =>
    "\x7b" ++ lineBreak (level + 1) ++ writeMember (level + 1) m
      ++ writeMembers (level + 1) members ++ lineBreak level ++ "\x7d"

/-- The items of an array after the first. -/
def writeItems (level : Nat) : List Json → String
  | [] => ""
  | item :: items => "," ++ lineBreak level ++ write level item ++ writeItems level items

/-- A member of an object. -/
def writeMember (level : Nat) : String × Json → String
  | (key, value) => quotedText key ++ ": " ++ write level value

/-- The members of an object after the first. -/
def writeMembers (level : Nat) : List (String × Json) → String
  | [] => ""
  | m :: members => "," ++ lineBreak level ++ writeMember level m ++ writeMembers level members

end

/-- A value as text. -/
def render (j : Json) : String := j.write 0

end Gsx.Json
