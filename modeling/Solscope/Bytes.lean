/-!
# Byte strings

Slices, zero padding, numbers in big-endian order and hexadecimal text.

* `Bytes.toNat_ofNat`, `Bytes.ofNat_toNat`: numbers and byte strings of one length correspond.
* `Bytes.length_ofNat`, `Bytes.length_paddedSlice`: both have exactly the length asked for.
-/

namespace Solscope

/-- A byte string. -/
abbrev Bytes := List UInt8

namespace Bytes

/-- The big-endian number a byte string spells. -/
def toNat (data : Bytes) : Nat := data.foldl (fun acc b => acc * 256 + b.toNat) 0

/-- The last `length` bytes of `n` in big-endian order. -/
def ofNat : (length : Nat) → (n : Nat) → Bytes
  | 0, _ => []
  | length + 1, n => ofNat length (n / 256) ++ [UInt8.ofNat n]

/-- `count` bytes from `offset` on, fewer if the data ends before. -/
def slice (data : Bytes) (offset count : Nat) : Bytes := (data.drop offset).take count

/-- `count` bytes from `offset` on, with zeros for every byte past the end. -/
def paddedSlice (data : Bytes) (offset count : Nat) : Bytes :=
  let available := data.slice offset count
  available ++ List.replicate (count - available.length) 0

/-- The lower-case hexadecimal digit of a number below 16. -/
def hexDigit (n : Nat) : Char := if n < 10 then Char.ofNat (48 + n) else Char.ofNat (87 + n)

/-- Two lower-case hexadecimal digits per byte. -/
def hexDigits (data : Bytes) : List Char :=
  data.flatMap fun b => [hexDigit (b.toNat / 16), hexDigit (b.toNat % 16)]

/-- Hexadecimal text, introduced by `0x`. -/
def hex (data : Bytes) : String := String.ofList ('0' :: 'x' :: data.hexDigits)

theorem length_ofNat (length n : Nat) : (ofNat length n).length = length := by
  induction length generalizing n with
  | zero => rfl
  | succ length ih => simp [ofNat, ih]

theorem toNat_append_singleton (data : Bytes) (b : UInt8) :
    toNat (data ++ [b]) = data.toNat * 256 + b.toNat := by
  simp [toNat]

theorem toNat_ofNat (length n : Nat) : toNat (ofNat length n) = n % Nat.pow 256 length := by
  induction length generalizing n with
  | zero => simp [ofNat, toNat, Nat.mod_one]
  | succ length ih =>
    have : Nat.pow 256 (length + 1) = 256 * Nat.pow 256 length := Nat.mul_comm ..
    rw [ofNat, toNat_append_singleton, ih, this, Nat.mod_mul]
    simp [Nat.mul_comm, Nat.add_comm]

theorem ofNat_toNat (data : Bytes) : ofNat data.length data.toNat = data := by
  suffices ∀ rev : Bytes, ofNat rev.length (toNat rev.reverse) = rev.reverse by
    simpa using this data.reverse
  intro rev
  induction rev with
  | nil => rfl
  | cons b rest ih =>
    have hb : b.toNat < 256 := b.toNat_lt
    have hdiv : (toNat rest.reverse * 256 + b.toNat) / 256 = toNat rest.reverse := by omega
    have hlow : UInt8.ofNat (toNat rest.reverse * 256 + b.toNat) = b :=
      UInt8.toNat_inj.1 (by simp)
    rw [List.reverse_cons, toNat_append_singleton, List.length_cons, ofNat, hdiv, hlow, ih]

theorem toNat_lt (data : Bytes) : data.toNat < Nat.pow 256 data.length := by
  rw [← ofNat_toNat data, toNat_ofNat, length_ofNat]
  exact Nat.mod_lt _ (Nat.pow_pos (by decide))

theorem length_paddedSlice (data : Bytes) (offset count : Nat) :
    (data.paddedSlice offset count).length = count := by
  simp only [paddedSlice, slice, List.length_append, List.length_replicate, List.length_take]
  omega

end Bytes

end Solscope
