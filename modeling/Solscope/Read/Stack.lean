import Solscope.Read.Input
import Solscope.Read.Storage

/-!
# Reading variables from the stack

Depending on its location, the stack slots of a variable hold the value itself, a pointer into
memory, an offset and possibly a length in the input, or a storage slot.
-/

namespace Solscope

/-- The machine state that variables are read from. -/
structure StackView where
  /-- The operand stack, bottom first. -/
  stack : List Word
  memory : Bytes
  input : Bytes
  /-- The storage of the running account, for storage pointers. -/
  storage : Option StorageView
  limits : Limits

namespace StackView

/-- The words of a variable of `count` stack slots from `index` on. -/
def words (view : StackView) (index count : Nat) : Except ReadError (List Word) :=
  if index + count ≤ view.stack.length then .ok ((view.stack.drop index).take count)
  else .error (.missingStackSlot index view.stack.length)

end StackView

namespace Declared

/-- The value of a variable at stack slot `index`. -/
def readStack (types : Declared) (view : StackView) (t : Ty) (index : Nat) (location : Location) :
    Except ReadError Value := do
  let words ← view.words index (t.stackSlots location)
  let first := words.headD 0
  match location with
  | .stack =>
    if t.isValue then return types.ofWord t first
    else types.readMemory view.memory view.limits t (Size.clamp first.toNat)
  | .memory => types.readMemory view.memory view.limits t (Size.clamp first.toNat)
  | .calldata =>
    types.readInputAt view.input view.limits t (Size.clamp first.toNat)
      (words[1]?.map fun w => Size.clamp w.toNat)
  | .storage => match view.storage with
    | none => .error (.unsupported t.text location)
    | some storage => return (← types.readStorage storage t ⟨first, 0⟩).1

end Declared

end Solscope
