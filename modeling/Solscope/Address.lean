import Solscope.Word
import Solscope.Keccak

/-!
# Addresses

The addresses of accounts, 160 bits, and their text, in which capitals serve as a checksum.
-/

namespace Solscope

/-- The address of an account. -/
abbrev Address := BitVec 160

namespace Address

/-- The address held in the low 20 bytes of a word. -/
def ofWord (w : Word) : Address := w.setWidth 160

/-- The address a number wraps around to. -/
def ofNat (n : Nat) : Address := BitVec.ofNat 160 n

/-- The 20 bytes of an address. -/
def toBytes (a : Address) : Bytes := Bytes.ofNat 20 a.toNat

/--
Hexadecimal text in which a letter is a capital exactly where the hash of the lower-case digits
has a half byte of at least 8.
-/
def checksum (a : Address) : String :=
  let digits := a.toBytes.hexDigits
  let hash := (Keccak.hash (digits.map fun c => c.toNat.toUInt8)).flatMap
    fun b => [b.toNat / 16, b.toNat % 16]
  let cased := List.zipWith (fun (c : Char) h => if 8 ≤ h then c.toUpper else c) digits hash
  String.ofList ('0' :: 'x' :: cased)

end Address

end Solscope
