import Solscope.Json.Basic
import Solscope.Bytes

/-!
# Writing JSON text

Text without blanks. Quotes, backslashes and control characters are escaped.

* `Json.render`: everything else is written as it is.
* `Json.renderAscii`: characters above ASCII are escaped too.
-/

namespace Solscope.Json

/-- One character inside a JSON string. -/
def escapeChar (c : Char) : List Char :=
  if c = '"' then ['\\', '"']
  else if c = '\\' then ['\\', '\\']
  else if c = '\n' then ['\\', 'n']
  else if c = '\r' then ['\\', 'r']
  else if c = '\t' then ['\\', 't']
  else if c.toNat = 8 then ['\\', 'b']
  else if c.toNat = 12 then ['\\', 'f']
  else if c.toNat < 32 then
    ['\\', 'u', '0', '0', Bytes.hexDigit (c.toNat / 16), Bytes.hexDigit (c.toNat % 16)]
  else [c]

/-- A JSON string. -/
def quote (text : String) : String := String.ofList ('"' :: text.toList.flatMap escapeChar ++ ['"'])

mutual

/-- The text of a value. -/
def render : Json → String
  | .null => "null"
  | .bool true => "true"
  | .bool false => "false"
  | .num spelling => spelling
  | .str text => quote text
  | .arr items => "[" ++ ",".intercalate (renderItems items) ++ "]"
  | .obj members => "\x7b" ++ ",".intercalate (renderMembers members) ++ "\x7d"

/-- The text of every item. -/
def renderItems : List Json → List String
  | [] => []
  | item :: rest => render item :: renderItems rest

/-- The text of every member. -/
def renderMembers : List (String × Json) → List String
  | [] => []
  | (name, value) :: rest => (quote name ++ ":" ++ render value) :: renderMembers rest

end

/-- The escape of a number below `0x10000`, four hexadecimal digits. -/
def escapeUnit (n : Nat) : List Char := '\\' :: 'u' :: (Bytes.ofNat 2 n).hexDigits

/-- A character in ASCII text: above ASCII the escapes of its one or two UTF-16 units. -/
def asciiChar (c : Char) : List Char :=
  let n := c.toNat
  if n < 0x80 then [c]
  else if n < 0x10000 then escapeUnit n
  else
    escapeUnit (0xD800 + (n - 0x10000) / 0x400) ++ escapeUnit (0xDC00 + (n - 0x10000) % 0x400)

/--
The text of a value in ASCII. Characters above ASCII stand in strings only, where escapes may.
-/
def renderAscii (j : Json) : String := String.ofList (j.render.toList.flatMap asciiChar)

end Solscope.Json
