/-!
# Solidity types

`Ty` is the type of a variable, with the members of structs spelled out. A struct met again inside
its own members is a reference by name (`StructRef`), so types are finite trees.
-/

namespace Solscope

/-- Where a variable's data lives. -/
inductive Location where
  /-- The value itself is on the stack. -/
  | stack
  /-- The stack holds a pointer into memory. -/
  | memory
  /-- The stack holds an offset into the input, and a length for dynamic types. -/
  | calldata
  /-- The value lives in storage. -/
  | storage
deriving DecidableEq, Repr

namespace Location

/-- The location a declaration names; without a word for one it is the stack. -/
def ofAttribute : Option String → Location
  | some "memory" => .memory
  | some "calldata" => .calldata
  | some "storage" => .storage
  | _ => .stack

/-- The word for a location. -/
def text : Location → String
  | .stack => "stack"
  | .memory => "memory"
  | .calldata => "calldata"
  | .storage => "storage"

end Location

/-- A struct met again inside its own members. -/
structure StructRef where
  name : String
  /-- The contract in which the members' types are looked up. -/
  scope : Option String
  /-- How many references lie on the way here, this one included. -/
  unfolds : Nat
deriving DecidableEq, Repr

/-- A Solidity type. -/
inductive Ty where
  /-- An unsigned integer of so many bytes. -/
  | uint (bytes : Nat)
  /-- A signed integer of so many bytes. -/
  | int (bytes : Nat)
  | bool
  | address
  /-- A byte string of fixed length. -/
  | fixedBytes (length : Nat)
  | bytes
  | string
  /-- A struct with its members in order. -/
  | struct (name : String) (fields : List (String × Ty))
  | structRef (ref : StructRef)
  /-- An enumeration with the names of its members in order. -/
  | enum (name : String) (members : List String)
  | staticArray (element : Ty) (length : Nat)
  | dynamicArray (element : Ty)
  | mapping (key value : Ty)
  /-- A contract, known by its address. -/
  | contract (name : String)
deriving Repr, Inhabited

namespace Ty

/-- Whether values fit into one word and may share a storage slot. -/
def isValue : Ty → Bool
  | uint _ | int _ | bool | address | fixedBytes _ | enum .. | contract _ => true
  | _ => false

/-- Whether a type is a mapping. -/
def isMapping : Ty → Bool
  | mapping .. => true
  | _ => false

/-- The bytes a value takes of a storage slot; types other than value types take whole slots. -/
def storageBytes : Ty → Nat
  | uint n | int n | fixedBytes n => n
  | bool | enum .. => 1
  | address | contract _ => 20
  | _ => 32

/--
The stack slots of a variable: dynamic data in the input takes two, an offset and a length,
everything else takes one.
-/
def stackSlots : Ty → Location → Nat
  | bytes, .calldata | string, .calldata | dynamicArray _, .calldata => 2
  | _, _ => 1

/-- The name of a type as declarations spell it. -/
def text : Ty → String
  | uint n => "uint" ++ toString (8 * n)
  | int n => "int" ++ toString (8 * n)
  | bool => "bool"
  | address => "address"
  | fixedBytes n => "bytes" ++ toString n
  | bytes => "bytes"
  | string => "string"
  | struct name _ => "struct " ++ name
  | structRef r => "struct " ++ r.name
  | enum name _ => "enum " ++ name
  | staticArray element n => element.text ++ "[" ++ toString n ++ "]"
  | dynamicArray element => element.text ++ "[]"
  | mapping key value => "mapping(" ++ key.text ++ " => " ++ value.text ++ ")"
  | contract name => "contract " ++ name

mutual

/-- Whether two types are equal when references are told apart by name and scope only. -/
def same : Ty → Ty → Bool
  | uint m, uint n | int m, int n | fixedBytes m, fixedBytes n => m = n
  | bool, bool | address, address | bytes, bytes | string, string => true
  | struct a fs, struct b gs => a = b && sameFields fs gs
  | structRef r, structRef s => r.name = s.name && r.scope = s.scope
  | enum a ms, enum b ns => a = b && ms = ns
  | staticArray s m, staticArray t n => same s t && m = n
  | dynamicArray s, dynamicArray t => same s t
  | mapping k v, mapping l w => same k l && same v w
  | contract a, contract b => a = b
  | _, _ => false

/-- Whether two lists of members agree in names and types. -/
def sameFields : List (String × Ty) → List (String × Ty) → Bool
  | [], [] => true
  | (a, s) :: fs, (b, t) :: gs => a = b && same s t && sameFields fs gs
  | _, _ => false

end

mutual

/-- The first reference inside a type, members, elements, keys and values taken in order. -/
def firstRef? : Ty → Option StructRef
  | structRef r => some r
  | struct _ fields => firstRefOfFields? fields
  | staticArray element _ | dynamicArray element => firstRef? element
  | mapping key value => (firstRef? key).or (firstRef? value)
  | _ => none

/-- The first reference inside the members of a struct. -/
def firstRefOfFields? : List (String × Ty) → Option StructRef
  | [] => none
  | (_, t) :: rest => (firstRef? t).or (firstRefOfFields? rest)

end

end Ty

end Solscope
