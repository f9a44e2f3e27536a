import Solscope.Ty.Declared
import Solscope.Value

/-!
# Reading values from words

* `Ty.ofBits`: a value from its bits, as storage packs them.
* `Ty.ofWord`: a value from a word of its own, as the stack, memory and input hold it.
* `Declared.zero`: the value whose encoding is zero.
-/

namespace Solscope

/-- The number whose two's complement of `bits` bits, at the low end of a word, is `n`. -/
def signed (bits n : Nat) : Int :=
  let w := Word.ofNat n
  let extended := if bits < 256 ∧ n.testBit (bits - 1) then w ||| BitVec.allOnes 256 <<< bits else w
  extended.toInt

namespace Ty

mutual

/--
A value from its bits, given the zero values of references. Only value types have bits; any other
type has its zero value whatever the bits are.
-/
def ofBitsWith (zeroOfRef : StructRef → Value) (bits : Nat) : Ty → Value
  | uint _ => .uint bits
  | int width => .int (signed (8 * width) bits)
  | bool => .bool (bits != 0)
  | address | contract _ => .address (Address.ofNat bits)
  | fixedBytes length => .fixedBytes (Bytes.ofNat length bits)
  | enum _ members => .enum (Size.clamp bits) members[Size.clamp bits]?
  | bytes => .bytes []
  | string => .string ""
  | struct _ fields => .struct (zeroOfFields zeroOfRef fields)
  | structRef r => zeroOfRef r
  | staticArray element length => .array (List.replicate length (ofBitsWith zeroOfRef 0 element))
  | dynamicArray _ => .array []
  | mapping .. => .mapping []

/-- The zero values of the members of a struct. -/
def zeroOfFields (zeroOfRef : StructRef → Value) : List (String × Ty) → List (String × Value)
  | [] => []
  | (name, t) :: rest => (name, ofBitsWith zeroOfRef 0 t) :: zeroOfFields zeroOfRef rest

end

/-- The significant bits of a word: the high bytes for a byte string, the low bytes otherwise. -/
def significant (t : Ty) (w : Word) : Nat :=
  match t with
  | fixedBytes length => w.toNat >>> (8 * (32 - length))
  | _ => w.field 0 t.storageBytes

end Ty

namespace Declared

/-- A value from its bits. -/
def ofBits (types : Declared) (t : Ty) (bits : Nat) : Value :=
  types.unfold (fun _ => .struct []) (fun zeroOfRef t => t.ofBitsWith zeroOfRef bits) t

/-- The value of an encoding that is zero. -/
def zero (types : Declared) (t : Ty) : Value := types.ofBits t 0

/-- A value from a word of its own. -/
def ofWord (types : Declared) (t : Ty) (w : Word) : Value := types.ofBits t (t.significant w)

end Declared

end Solscope
