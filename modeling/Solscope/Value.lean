import Solscope.Address
import Solscope.Json.Basic
import Solscope.Text.Quoted

/-!
# Decoded values

* `Value.text`: the text of a value, as a reader of source code writes it.
* `Value.json`: the value as JSON; integers are decimal strings, so that nothing is lost, and a
  repeated member of a struct keeps its last value.
* `Value.record`: the value as JSON that keeps every member of a struct, in order.
-/

namespace Solscope

/-- A decoded value. -/
inductive Value where
  | uint (n : Nat)
  | int (n : Int)
  | bool (b : Bool)
  /-- An account or a contract. -/
  | address (a : Address)
  /-- A byte string of fixed length. -/
  | fixedBytes (data : Bytes)
  | bytes (data : Bytes)
  | string (text : String)
  /-- A member of an enumeration, with its name if it has one. -/
  | enum (ordinal : Nat) (member : Option String)
  /-- The members of a struct in order. -/
  | struct (fields : List (String × Value))
  | array (items : List Value)
  /-- The entries of a mapping by the text of their keys, in the order of those texts. -/
  | mapping (entries : List (String × Value))
deriving Inhabited

namespace Value

mutual

/-- The text of a value. -/
def text : Value → String
  | uint n => toString n
  | int n => toString n
  | bool b => if b then "true" else "false"
  | address a => a.checksum
  | fixedBytes data | bytes data => data.hex
  | string text => Text.quoted text
  | enum ordinal member => member.getD (toString ordinal)
  | struct fields => "\x7b" ++ ", ".intercalate (textOfPairs ": " fields) ++ "\x7d"
  | array items => "[" ++ ", ".intercalate (textOfItems items) ++ "]"
  | mapping entries => "\x7b" ++ ", ".intercalate (textOfPairs " => " entries) ++ "\x7d"

/-- The texts of the items of an array. -/
def textOfItems : List Value → List String
  | [] => []
  | v :: rest => text v :: textOfItems rest

/-- The texts of members or entries. -/
def textOfPairs (between : String) : List (String × Value) → List String
  | [] => []
  | (name, v) :: rest => (name ++ between ++ text v) :: textOfPairs between rest

end

/-- A value without parts as JSON, a value with parts as `parts`. -/
def jsonOf (parts : Json) : Value → Json
  | uint n => .str (toString n)
  | int n => .str (toString n)
  | bool b => .bool b
  | address a => .str a.checksum
  | fixedBytes data | bytes data => .str data.hex
  | string text => .str text
  | enum ordinal member => match member with
    | some name => .str name
    | none => .nat ordinal
  | struct _ | array _ | mapping _ => parts

mutual

/-- A value as JSON whose objects have all members of structs in their order. -/
def record : Value → Json
  | struct fields => .obj (recordOfPairs fields)
  | array items => .arr (recordOfItems items)
  | mapping entries => .obj (recordOfPairs entries)
  | v => jsonOf .null v

/-- The items of an array as JSON. -/
def recordOfItems : List Value → List Json
  | [] => []
  | v :: rest => record v :: recordOfItems rest

/-- Members or entries as JSON. -/
def recordOfPairs : List (String × Value) → List (String × Json)
  | [] => []
  | (name, v) :: rest => (name, record v) :: recordOfPairs rest

end

/-- A value as JSON whose objects have every name once. -/
def json (v : Value) : Json := v.record.collapse

end Value

end Solscope
