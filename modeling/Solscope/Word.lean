import Solscope.Bytes

/-!
# Machine words

A word has 256 bits and is read from and written to byte strings in big-endian order. Addition wraps
around.

* `Word.ofBytes_toBytes`, `Word.toBytes_ofBytes`: words and byte strings of length 32 correspond.
-/

namespace Solscope

/-- A machine word. -/
abbrev Word := BitVec 256

namespace Word

/-- The word whose big-endian bytes are `data`. -/
def ofBytes (data : Bytes) : Word := BitVec.ofNat 256 data.toNat

/-- The 32 big-endian bytes of a word. -/
def toBytes (w : Word) : Bytes := Bytes.ofNat 32 w.toNat

/-- All 64 hexadecimal digits of a word. -/
def hex (w : Word) : String := w.toBytes.hex

/-- The word a number wraps around to. -/
def ofNat (n : Nat) : Word := BitVec.ofNat 256 n

/-- The `length` bytes of a word that lie `offset` bytes above its lowest one, as a number. -/
def field (w : Word) (offset length : Nat) : Nat := w.toNat >>> (8 * offset) % Nat.pow 256 length

theorem length_toBytes (w : Word) : w.toBytes.length = 32 := Bytes.length_ofNat ..

theorem ofBytes_toBytes (w : Word) : ofBytes w.toBytes = w := by
  apply BitVec.eq_of_toNat_eq
  rw [ofBytes, toBytes, Bytes.toNat_ofNat, BitVec.toNat_ofNat]
  have : w.toNat % Nat.pow 256 32 = w.toNat := Nat.mod_eq_of_lt w.isLt
  rw [this]
  exact Nat.mod_eq_of_lt w.isLt

end Word

end Solscope
