import Solscope.Json.Basic
import Solscope.Text.Integer

/-!
# Records, choices, scalars and free values in JSON

A record is an object, whose unknown members are ignored and whose known members may stand only
once, or an array of the fields in their order. A choice is the name of one of several constants.
How a value that may be anything is read is up to what reads the JSON.
-/

namespace Solscope.Json

/-- How free values are read, where they stand in a text and where they stand in another value. -/
structure Library where
  /-- The value that a part of a text describes, if it does. -/
  ofText : Json → Option Json
  /-- The value that a part of another value describes, if it does. -/
  ofValue : Json → Option Json

/-- The only value among the members whose name is one of `names`; fails on several. -/
def soleMember? (names : List String) (members : List (String × Json)) : Option (Option Json) :=
  match members.filter fun m => m.1 ∈ names with
  | [] => some none
  | [m] => some (some m.2)
  | _ => none

/--
The fields of a record, each present or absent. A field is given by the names it may have, and an
array may not have more items than there are fields.
-/
def fields? (names : List (List String)) : Json → Option (List (Option Json))
  | .obj members => names.mapM fun alternatives => soleMember? alternatives members
  | .arr items =>
    if items.length ≤ names.length then
      some (items.map some ++ List.replicate (names.length - items.length) none)
    else none
  | _ => none

/-- A required field. -/
def required {α : Type} (read : Json → Option α) : Option Json → Option α
  | none => none
  | some value => read value

/-- A field that has a value of its own where it is absent. -/
def defaulting {α : Type} (absent : α) (read : Json → Option α) : Option Json → Option α
  | none => some absent
  | some value => read value

/-- A value that may be `null`. -/
def nullable {α : Type} (read : Json → Option α) : Json → Option (Option α)
  | .null => some none
  | value => (read value).map some

/-- A size, spelled in digits. -/
def asSize? : Json → Option Nat
  | .num spelling => (Text.readSize spelling.toList).toOption
  | _ => none

/-- A one-character string. -/
def asChar? : Json → Option Char
  | .str text => match text.toList with
    | [c] => some c
    | _ => none
  | _ => none

/-- An array whose items can all be read. -/
def asList? {α : Type} (read : Json → Option α) : Json → Option (List α)
  | .arr items => items.mapM read
  | _ => none

/-- An object whose values can all be read. -/
def asMap? {α : Type} (read : Json → Option α) : Json → Option (List (String × α))
  | .obj members =>
    let entries := members.mapM fun (m : String × Json) => (read m.2).map fun a => (m.1, a)
    entries.map Ordered.ofList
  | _ => none

/--
The name of a choice without data: a string, or an object whose only member has the name and the
value `null`.
-/
def choice? : Json → Option String
  | .str name => some name
  | .obj [(name, .null)] => some name
  | _ => none

/-- The choice of a name, given the names of all choices. -/
def oneOf? {α : Type} (choices : List (String × α)) (j : Json) : Option α := do
  let name ← choice? j
  (choices.find? fun choice => choice.1 = name).map Prod.snd

/-- The name of a choice, given the names of all choices. -/
def nameOf {α : Type} [DecidableEq α] (choices : List (String × α)) (a : α) : String :=
  ((choices.find? fun choice => choice.2 = a).map Prod.fst).getD ""

end Solscope.Json
