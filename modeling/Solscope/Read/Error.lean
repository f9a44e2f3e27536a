import Solscope.Address
import Solscope.Ty.Basic

/-!
# Why a value cannot be read
-/

namespace Solscope

/-- A storage slot that could not be read. -/
structure StorageError where
  address : Address
  slot : Word
  /-- What the storage has to say about it. -/
  reason : String
deriving DecidableEq, Repr

/-- The wording of an error. -/
def StorageError.message (e : StorageError) : String :=
  s!"failed to read slot {e.slot.toNat} of {e.address.checksum}: {e.reason}"

/-- Why a value cannot be read. -/
inductive ReadError where
  /-- The storage could not be read. -/
  | storage (e : StorageError)
  /-- Memory or input ends before the last byte. -/
  | outOfBounds (offset length : Nat)
  /-- Values of this type do not live there. -/
  | unsupported (type : String) (location : Location)
  /-- The references to a struct were followed too often. -/
  | unresolved (name : String)
  /-- The stack is not high enough. -/
  | missingStackSlot (index height : Nat)
  /-- A size that reading needs is none: there is no way to go on. -/
  | overflow
deriving DecidableEq, Repr

/-- The wording of an error, which an overflow has none of. -/
def ReadError.message? : ReadError → Option String
  | .storage e => some e.message
  | .outOfBounds offset length =>
    some s!"read of {length} bytes at offset {offset} is out of bounds"
  | .unsupported type location => some s!"{type} cannot be decoded from {location.text}"
  | .unresolved name => some s!"struct {name} nests too deeply to decode"
  | .missingStackSlot index height =>
    some s!"stack slot {index} is not available (stack height {height})"
  | .overflow => none

/-- Whether reading comes across a size that is none. -/
def overflows {α : Type} (x : Except ReadError α) : Bool :=
  match x with
  | .error .overflow => true
  | _ => false

theorem overflows_iff {α : Type} {x : Except ReadError α} :
    overflows x = true ↔ x = .error .overflow := by
  rcases x with (_ | _) | _ <;> simp [overflows]

/-- How much is read of data whose length somebody else chose. -/
structure Limits where
  /-- The most elements of an array. -/
  array : Nat := 256
  /-- The most entries of a mapping. -/
  mapping : Nat := 256
  /-- The most bytes of a byte string. -/
  bytes : Nat := 4096
deriving DecidableEq, Repr

namespace Limits

/-- The most elements of an array that memory has room for, of 40 bytes each. -/
def roomForItems : Nat := (Nat.pow 2 63 - 1) / 40

/-- The most bytes of a byte string that memory has room for, which is read in whole words. -/
def roomForBytes : Nat := (Nat.pow 2 63 - 1) / 32 * 32

/-- The limits as far as memory has room. -/
def inMemory (limits : Limits) : Limits where
  array := min limits.array roomForItems
  mapping := limits.mapping
  bytes := min limits.bytes roomForBytes

/-- The elements to read of an array of some length. Room is made for all of them at once. -/
def itemCount (limits : Limits) (length : Nat) : Except ReadError Nat :=
  if min length limits.array ≤ roomForItems then .ok (min length limits.array) else .error .overflow

/-- The bytes to read of a byte string of some length. Room is made for all of them at once. -/
def byteCount (limits : Limits) (length : Nat) : Except ReadError Nat :=
  if min length limits.bytes ≤ roomForBytes then .ok (min length limits.bytes) else .error .overflow

end Limits

/-- Reads `count` times in a row, each time from where the reading before ended. -/
def readRepeated {σ α : Type} (read : σ → Except ReadError (α × σ)) :
    (count : Nat) → σ → Except ReadError (List α × σ)
  | 0, s => .ok ([], s)
  | count + 1, s => do
    let (a, s) ← read s
    let (rest, s) ← readRepeated read count s
    return (a :: rest, s)

end Solscope
