import Solscope.Ordered
import Solscope.Ty.Descriptor

/-!
# Declared types

The structs, enumerations and contracts of a compilation, and the types that descriptors name among
them.

* `Declared.resolve?`: the type of a descriptor, as seen from inside a contract.
* `Declared.follow?`: the struct a reference stands for, one level deep.
* `Declared.unfold`: computing something for a type and everything its references stand for.
-/

namespace Solscope

/-- A struct as it is declared. -/
structure StructDecl where
  /-- The name, with that of the contract in front. -/
  name : String
  /-- The contract around the declaration. -/
  scope : Option String
  /-- Names and type descriptors of the members. -/
  members : List (String × String)
deriving DecidableEq, Repr

/-- An enumeration as it is declared. -/
structure EnumDecl where
  /-- The name, with that of the contract in front. -/
  name : String
  /-- The names of the members. -/
  members : List String
deriving DecidableEq, Repr

/-- The types declared in a compilation. -/
structure Declared where
  structs : List (String × StructDecl) := []
  enums : List (String × EnumDecl) := []
  contracts : List String := []
deriving DecidableEq, Repr

/-- What is being resolved around a descriptor. -/
structure Expansion where
  /-- The structs whose members are being resolved. -/
  structs : List String := []
  /-- The references followed to get here. -/
  unfolds : Nat := 0
deriving DecidableEq, Repr

namespace Declared

/-- How many descriptors may be nested, the outermost included. -/
def depthLimit : Nat := 33

/-- How many references may be followed one after the other. -/
def unfoldLimit : Nat := 32

/-- Declares a struct, in place of one with the same name. -/
def addStruct (types : Declared) (s : StructDecl) : Declared :=
  { types with structs := Ordered.insert s.name s types.structs }

/-- Declares an enumeration, in place of one with the same name. -/
def addEnum (types : Declared) (e : EnumDecl) : Declared :=
  { types with enums := Ordered.insert e.name e types.enums }

/-- Declares a contract, library or interface. -/
def addContract (types : Declared) (name : String) : Declared :=
  { types with contracts := types.contracts ++ [name] }

/-- Whether a contract of this name is declared. -/
def hasContract (types : Declared) (name : String) : Bool := name ∈ types.contracts

/-- Whether a full name ends in a dot and `name`. -/
def endsIn (name key : String) : Bool := ('.' :: name.toList).isSuffixOf key.toList

/-- The only declaration whose full name ends in a dot and `name`. -/
def soleEndingIn? {α : Type} (entries : List (String × α)) (name : String) : Option α :=
  match entries.filter fun entry => endsIn name entry.1 with
  | [entry] => some entry.2
  | _ => none

/--
The declaration a name stands for inside `contract`: the one of that full name, else the one of that
name in the contract, else the only one that ends in it.
-/
def lookup? {α : Type} (entries : List (String × α)) (contract : Option String) (name : String) :
    Option α :=
  (Ordered.find? name entries).or <|
    (contract.bind fun c => Ordered.find? (c ++ "." ++ name) entries).or <|
      soleEndingIn? entries name

/-- The type of a struct, whose members are resolved by `resolve` unless they are so already. -/
def structTy (s : StructDecl) (contract : Option String) (around : Expansion)
    (resolve : Expansion → Option String → List Char → Option Ty) : Ty :=
  let scope := s.scope.or contract
  if s.name ∈ around.structs then .structRef ⟨s.name, scope, around.unfolds + 1⟩
  else
    let inside := { around with structs := s.name :: around.structs }
    .struct s.name <| s.members.filterMap fun (name, descriptor) =>
      (resolve inside scope descriptor.toList).map fun t => (name, t)

/--
The type of a descriptor inside `contract`, if there is one and no more than `depth` descriptors are
nested. Members of structs whose types cannot be resolved are left out.
-/
def resolveNested (types : Declared) : (depth : Nat) → Expansion → (contract : Option String) →
    (descriptor : List Char) → Option Ty
  | 0, _, _, _ => none
  | depth + 1, around, contract, descriptor =>
    let descriptor := Descriptor.normalize descriptor
    let mapping? := do
      let (key, value) ← Descriptor.mapping? descriptor
      let key ← resolveNested types depth around contract key
      let value ← resolveNested types depth around contract value
      return .mapping key value
    let array? := do
      let (element, size) ← Descriptor.array? descriptor
      let element ← resolveNested types depth around contract element
      if size.isEmpty then return .dynamicArray element
      let length ← (Text.readSize size).toOption
      return .staticArray element length
    let struct? := do
      let s ← lookup? types.structs contract (← Descriptor.struct? descriptor)
      return structTy s contract around (resolveNested types depth)
    let enum? := do
      let e ← lookup? types.enums contract (← Descriptor.enum? descriptor)
      return .enum e.name e.members
    let contract? := (Descriptor.contract? descriptor).map .contract
    mapping? <|> array? <|> Descriptor.elementary? descriptor <|> struct? <|> enum? <|> contract?

/--
The type of a descriptor, as seen from inside `contract`. Function types, tuples and anything else
without a representation here have none.
-/
def resolve? (types : Declared) (descriptor : String) (contract : Option String) : Option Ty :=
  types.resolveNested depthLimit {} contract descriptor.toList

/-- The struct a reference stands for, unless too many references have been followed. -/
def follow? (types : Declared) (r : StructRef) : Option Ty :=
  if unfoldLimit < r.unfolds then none
  else types.resolveNested depthLimit { unfolds := r.unfolds } r.scope ("struct " ++ r.name).toList

/--
Computes `go` for a type; inside, a reference has the result for the struct it stands for, and
`stuck` where it stands for none. At most `budget` references are followed one inside the other.
-/
def unfoldWithin {α : Type} (types : Declared) (stuck : StructRef → α)
    (go : (StructRef → α) → Ty → α) : (budget : Nat) → Ty → α
  | 0, t => go stuck t
  | budget + 1, t =>
    go (fun r => match types.follow? r with
      | some t => unfoldWithin types stuck go budget t
      | none => stuck r) t

/-- Computes `go` for a type and the structs its references stand for. -/
def unfold {α : Type} (types : Declared) (stuck : StructRef → α)
    (go : (StructRef → α) → Ty → α) (t : Ty) : α :=
  types.unfoldWithin stuck go unfoldLimit t

end Declared

end Solscope
