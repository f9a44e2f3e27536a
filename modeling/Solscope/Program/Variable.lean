import Solscope.Layout.Cursor
import Solscope.Source.Position
import Solscope.Ty.Descriptor

/-!
# Variables of a program

* `Variable.ofTy`: a variable, with the stack slots it takes even if its type is not known.
* `Variable.isVisibleAt`: where a variable can be shown.
* `Variable.place`: stack slots for variables one after the other; `Variable.place_append` says that
  lists of variables may be placed piece by piece.
-/

namespace Solscope

/-- What declares a variable. -/
inductive VariableKind where
  /-- A contract, to be kept in storage. -/
  | state
  /-- The parameters of a function or modifier. -/
  | argument
  /-- The named or unnamed results of a function. -/
  | result
  /-- A statement. -/
  | «local»
deriving DecidableEq, Repr

/-- A variable of a program. -/
structure Variable where
  /-- The name, which parameters may lack. -/
  name : String
  /-- The compiler's name of the type. -/
  descriptor : String
  /-- The type, if it is one of those that can be shown. -/
  ty : Option Ty
  location : Location
  /-- How many slots the variable takes on the stack. -/
  stackSlots : Nat
  /-- The first of these slots, counted from the first one of the function. -/
  stackOffset : Nat := 0
  /-- Where a state variable starts in storage. -/
  storage : Option SlotCursor := none
  /-- The statement that declares a local variable. -/
  declaration : Option Extent := none
  /-- The block around a local variable. -/
  scope : Option Extent := none
  kind : VariableKind
deriving Repr

namespace Variable

/-- Whether a descriptor names a type whose values in the input have a length. -/
def isSized (descriptor : String) : Bool :=
  let descriptor := Descriptor.normalize descriptor.toList
  descriptor = "bytes".toList || descriptor = "string".toList ||
    ['[', ']'].isSuffixOf descriptor

/-- The stack slots of a variable whose type is not known. -/
def slotsOfDescriptor (descriptor : String) (location : Location) : Nat :=
  if location = .calldata ∧ isSized descriptor then 2 else 1

/-- A variable of a type, which may not be known. -/
def ofTy (name descriptor : String) (ty : Option Ty) (location : Location) (kind : VariableKind) :
    Variable :=
  let stackSlots := match ty with
    | some t => t.stackSlots location
    | none => slotsOfDescriptor descriptor location
  { name, descriptor, ty, location, stackSlots, kind }

/--
Whether a variable can be shown at a position: a local one from the start of its declaration to the
end of the block around it, any other everywhere.
-/
def isVisibleAt (v : Variable) (file : Nat) (p : Position) : Bool :=
  v.kind ≠ .local ||
    (v.scope.all fun scope => scope.contains file p) &&
      v.declaration.all fun declaration => declaration.file = file && declaration.start ≤ p

/-- Places variables on the stack one after the other from `offset` on. -/
def place (offset : Nat) : List Variable → List Variable
  | [] => []
  | v :: rest => { v with stackOffset := offset } :: place (offset + v.stackSlots) rest

/-- The stack slots of variables together. -/
def totalSlots : List Variable → Nat
  | [] => 0
  | v :: rest => v.stackSlots + totalSlots rest

theorem totalSlots_append (as bs : List Variable) :
    totalSlots (as ++ bs) = totalSlots as + totalSlots bs := by
  induction as with
  | nil => simp [totalSlots]
  | cons v rest ih => simp [totalSlots, ih, Nat.add_assoc]

theorem place_append (offset : Nat) (as bs : List Variable) :
    place offset (as ++ bs) = place offset as ++ place (offset + totalSlots as) bs := by
  induction as generalizing offset with
  | nil => simp [place, totalSlots]
  | cons v rest ih => simp [place, totalSlots, ih, Nat.add_assoc]

end Variable

end Solscope
