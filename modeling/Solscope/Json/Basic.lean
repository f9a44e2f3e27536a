import Solscope.Ordered

/-!
# JSON values

Numbers keep their spelling, and objects their members in the order they were written, repetitions
included.

* `Json.collapse`: sorts the members and keeps the last one of each name.
* `Json.depth`: how deeply arrays and objects nest.
-/

namespace Solscope

/-- A JSON value. -/
inductive Json where
  | null
  | bool (value : Bool)
  /-- A number as it is spelled. -/
  | num (spelling : String)
  | str (text : String)
  | arr (items : List Json)
  | obj (members : List (String × Json))
deriving Inhabited

namespace Json

/-- A number without fraction or exponent. -/
def nat (n : Nat) : Json := .num (toString n)

/-- A signed number without fraction or exponent. -/
def int (n : Int) : Json := .num (toString n)

/-- Absent values are written as `null`. -/
def option {α : Type} (write : α → Json) : Option α → Json
  | none => .null
  | some a => write a

/-- The text of a string. -/
def asStr? : Json → Option String
  | .str text => some text
  | _ => none

/-- The value of a boolean. -/
def asBool? : Json → Option Bool
  | .bool value => some value
  | _ => none

/-- The items of an array. -/
def asArr? : Json → Option (List Json)
  | .arr items => some items
  | _ => none

/-- The members of an object. -/
def asObj? : Json → Option (List (String × Json))
  | .obj members => some members
  | _ => none

/-- The first member of an object with a given name. -/
def member? (name : String) : Json → Option Json
  | .obj members => (members.find? fun m => m.1 = name).map Prod.snd
  | _ => none

mutual

/-- How many arrays and objects are open at the deepest place of a value. -/
def depth : Json → Nat
  | .arr items => depthOfItems items + 1
  | .obj members => depthOfMembers members + 1
  | _ => 0

/-- The greatest depth of the items. -/
def depthOfItems : List Json → Nat
  | [] => 0
  | item :: rest => max (depth item) (depthOfItems rest)

/-- The greatest depth of the members. -/
def depthOfMembers : List (String × Json) → Nat
  | [] => 0
  | (_, value) :: rest => max (depth value) (depthOfMembers rest)

end

mutual

/-- Sorts the members of every object by name and keeps the last member of each name. -/
def collapse : Json → Json
  | .arr items => .arr (collapseItems items)
  | .obj members => .obj (Ordered.ofList (collapseMembers members))
  | other => other

/-- Collapses every item. -/
def collapseItems : List Json → List Json
  | [] => []
  | item :: rest => collapse item :: collapseItems rest

/-- Collapses every member's value. -/
def collapseMembers : List (String × Json) → List (String × Json)
  | [] => []
  | (name, value) :: rest => (name, collapse value) :: collapseMembers rest

end

end Json

end Solscope
