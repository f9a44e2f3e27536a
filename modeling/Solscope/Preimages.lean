import Solscope.Keccak
import Solscope.Word

/-!
# Hash preimages

Every hash input seen during a run, in the order of arrival. The slot of a mapping's entry is the
hash of the key followed by the slot of the mapping, so the keys of a mapping are found among the
inputs that end in its slot.
-/

namespace Solscope

/-- A hash input with its hash. -/
structure Preimage where
  data : Bytes
  hash : Word
deriving DecidableEq, Repr

/-- The hash of a byte string as a word. -/
def keccakWord (data : Bytes) : Word := Word.ofBytes (Keccak.hash data)

/-- The part of a hash input before its last word, if that is `suffix`. -/
def Preimage.key? (p : Preimage) (suffix : Word) : Option Bytes :=
  if 32 ≤ p.data.length ∧ p.data.drop (p.data.length - 32) = suffix.toBytes then
    some (p.data.take (p.data.length - 32))
  else none

/-- Hash inputs in the order of arrival. -/
abbrev Preimages := List Preimage

namespace Preimages

/-- Adds a hash input with a hash computed elsewhere. -/
def recordHashed (d : Preimages) (data : Bytes) (hash : Word) : Preimages := d ++ [⟨data, hash⟩]

/-- Adds a hash input. -/
def record (d : Preimages) (data : Bytes) : Preimages := d.recordHashed data (keccakWord data)

/-- The hash inputs whose last word is `suffix`. -/
def withSuffix (d : Preimages) (suffix : Word) : Preimages :=
  d.filter fun p => (p.key? suffix).isSome

/-- The first hash input with a given hash. -/
def ofHash? (d : Preimages) (hash : Word) : Option Preimage := d.find? fun p => p.hash = hash

end Preimages

end Solscope
