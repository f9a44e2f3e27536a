import Mathlib.Tactic.Linarith
import Mathlib.Tactic.NormNum
import Mathlib.Tactic.Positivity
import Mathlib.Tactic.Ring
import Solscope.Proofs.Bytes
import Solscope.Proofs.Ty.Parts
import Solscope.Read.Word

/-!
# The bits of values

* `Ty.bits?`: the bits of a value of a value type, as storage packs them.
* `Ty.word?`: a word of its own for such a value, as encoded input holds it.
* `signed_ofInt`: a number is read back from its two's complement.
* `Declared.ofBits_of_bits?`: **a value is read back from its bits.**
* `Declared.ofWord_of_word?`: **a value is read back from its word.**
-/

namespace Solscope

/-! ## Two's complement -/

/-- Reading a signed number extends its sign. -/
theorem signed_eq_toInt {bits n : Nat} (h0 : 0 < bits) (h : bits ≤ 256) (hn : n < 2 ^ bits) :
    signed bits n = (BitVec.ofNat bits n).toInt := by
  rw [← BitVec.toInt_signExtend_of_le (x := BitVec.ofNat bits n) h]
  unfold signed
  dsimp only
  congr 1
  refine BitVec.eq_of_getLsbD_eq fun i hi => ?_
  have hmsb : (BitVec.ofNat bits n).msb = n.testBit (bits - 1) := by
    rw [BitVec.msb_eq_getLsbD_last, BitVec.getLsbD_ofNat]
    simp [h0]
  have hhigh : bits ≤ i → n.testBit i = false := fun hle =>
    Nat.testBit_lt_two_pow (lt_of_lt_of_le hn (Nat.pow_le_pow_right (by decide) hle))
  rw [BitVec.getLsbD_signExtend, hmsb, BitVec.getLsbD_ofNat]
  have hword : (Word.ofNat n).getLsbD i = n.testBit i := by
    rw [Word.ofNat, BitVec.getLsbD_ofNat]; simp [hi]
  -- below the sign the bits are those of the number, above it they all are the sign
  by_cases hib : i < bits
  · split
    · simp only [BitVec.getLsbD_or, BitVec.getLsbD_shiftLeft, hword]
      simp [hib, hi]
    · rw [hword]; simp [hib, hi]
  · have hs : i - bits < 256 := by omega
    by_cases hsign : n.testBit (bits - 1) = true
    · rw [if_pos ⟨by omega, hsign⟩]
      simp only [BitVec.getLsbD_or, BitVec.getLsbD_shiftLeft, BitVec.getLsbD_allOnes]
      simp [hi, hib, hs, hsign]
    · rw [if_neg fun h => hsign h.2, hword, hhigh (by omega)]
      simp [hib, hsign]

/-- **A number is read back from its two's complement.** -/
theorem signed_ofInt {bits : Nat} {x : Int} (h0 : 0 < bits) (h : bits ≤ 256)
    (hlow : -2 ^ (bits - 1) ≤ x) (hhigh : x < 2 ^ (bits - 1)) :
    signed bits (BitVec.ofInt bits x).toNat = x := by
  rw [signed_eq_toInt h0 h (BitVec.isLt _), BitVec.ofNat_toNat, BitVec.setWidth_eq,
    BitVec.toInt_ofInt_eq_self h0 hlow hhigh]

/-- The low bits of a word that holds a number are those of a shorter two's complement. -/
theorem toNat_ofInt_mod {bits : Nat} (h : bits ≤ 256) (x : Int) :
    (BitVec.ofInt 256 x).toNat % 2 ^ bits = (BitVec.ofInt bits x).toNat := by
  have hdvd : ((2 ^ bits : Nat) : Int) ∣ ((2 ^ 256 : Nat) : Int) :=
    Int.natCast_dvd_natCast.2 (Nat.pow_dvd_pow 2 h)
  have h0 : 0 ≤ x % ((2 ^ 256 : Nat) : Int) := Int.emod_nonneg _ (by positivity)
  rw [BitVec.toNat_ofInt, BitVec.toNat_ofInt, ← Int.emod_emod_of_dvd x hdvd]
  generalize x % ((2 ^ 256 : Nat) : Int) = y at h0
  obtain ⟨n, rfl⟩ := Int.eq_ofNat_of_zero_le h0
  rw [← Int.natCast_emod, Int.toNat_natCast, Int.toNat_natCast]

/-! ## Bits and words -/

namespace Ty

/-- The bits of a value of a value type, as storage packs them. -/
def bits? : Ty → Value → Option Nat
  | uint n, .uint x => if x < 256 ^ n then some x else none
  | int n, .int x =>
    if -2 ^ (8 * n - 1) ≤ x ∧ x < 2 ^ (8 * n - 1) then some (BitVec.ofInt (8 * n) x).toNat
    else none
  | bool, .bool b => some b.toNat
  | address, .address a | contract _, .address a => some a.toNat
  | fixedBytes n, .fixedBytes data => if data.length = n then some data.toNat else none
  | enum _ members, .enum ordinal member =>
    if ordinal < 256 ∧ member = members[ordinal]? then some ordinal else none
  | _, _ => none

/--
The word of a value of a value type: numbers are extended to all of it, byte strings stand at its
high end.
-/
def word? (t : Ty) (v : Value) : Option Word :=
  (t.bits? v).map fun bits => match v with
    | .int x => BitVec.ofInt 256 x
    | .fixedBytes data => Word.ofBytes (data ++ List.replicate (32 - data.length) 0)
    | _ => Word.ofNat bits

theorem isValue_of_bits? {t : Ty} {v : Value} {bits : Nat} (h : t.bits? v = some bits) :
    t.isValue = true := by
  unfold bits? at h
  split at h <;> simp_all [isValue]

/-- The bits of a value fill the bytes that storage has for it. -/
theorem bits?_lt {t : Ty} {v : Value} {bits : Nat} (hw : t.hasWidth = true)
    (h : t.bits? v = some bits) : bits < 256 ^ t.storageBytes := by
  unfold bits? at h
  split at h
  · split at h <;> simp_all [storageBytes]
  · rename_i n x
    split at h
    · obtain rfl := Option.some.inj h
      rw [storageBytes, Bytes.pow_eq]
      exact BitVec.isLt _
    · cases h
  · rename_i b
    obtain rfl := Option.some.inj h
    cases b <;> simp [storageBytes]
  · rename_i a
    obtain rfl := Option.some.inj h
    exact lt_of_lt_of_eq a.isLt (by norm_num [storageBytes])
  · rename_i a
    obtain rfl := Option.some.inj h
    exact lt_of_lt_of_eq a.isLt (by norm_num [storageBytes])
  · rename_i n data
    split at h
    · rename_i hlen
      obtain rfl := Option.some.inj h
      rw [storageBytes, ← hlen]
      exact data.toNat_lt
    · cases h
  · split at h
    · rename_i hord
      obtain rfl := Option.some.inj h
      simpa [storageBytes] using hord.1
    · cases h
  · cases h

/-- The bytes of a value type other than a byte string stand at the low end of its word. -/
theorem significant_eq_field {t : Ty} (ht : ∀ n, t ≠ fixedBytes n) (w : Word) :
    t.significant w = w.field 0 t.storageBytes := by
  cases t with
  | fixedBytes n => exact absurd rfl (ht n)
  | _ => rfl

theorem field_ofNat {bits length : Nat} (hlen : length ≤ 32) (h : bits < 256 ^ length) :
    (Word.ofNat bits).field 0 length = bits := by
  have hword : bits < 2 ^ 256 :=
    calc bits < 256 ^ length := h
      _ ≤ 256 ^ 32 := Nat.pow_le_pow_right (by decide) hlen
      _ = 2 ^ 256 := by norm_num
  rw [Word.field, Word.toNat_ofNat_of_lt hword]
  exact Nat.mod_eq_of_lt h

/-- **The significant bits of a word are the bits of its value.** -/
theorem significant_of_word? {t : Ty} {v : Value} {w : Word} (hw : t.hasWidth = true)
    (h : t.word? v = some w) : t.bits? v = some (t.significant w) := by
  obtain ⟨bits, hbits, hword⟩ := Option.map_eq_some_iff.1 h
  -- signed numbers are extended and byte strings stand at the high end, the rest is as it was
  have hlt := bits?_lt hw hbits
  have hbytes := (storageBytes_bounds (isValue_of_bits? hbits) hw).2
  rw [hbits]
  unfold bits? at hbits
  split at hbits
  case h_2 n x =>
    split at hbits
    · obtain rfl := Option.some.inj hbits
      have hpow : Nat.pow 256 n = 2 ^ (8 * n) := Bytes.pow_eq n
      have hn : 8 * n ≤ 256 := by
        rw [storageBytes] at hbytes; omega
      rw [← hword, significant_eq_field (by simp), Word.field, storageBytes, hpow,
        ← toNat_ofInt_mod hn]
      rfl
    · cases hbits
  case h_6 n data =>
    split at hbits
    · rename_i hlen
      obtain rfl := Option.some.inj hbits
      rw [storageBytes] at hbytes hlt
      have hpow := Bytes.pow_eq (32 - n)
      have hsmall : data.toNat * 2 ^ (8 * (32 - n)) < 2 ^ 256 :=
        calc data.toNat * 2 ^ (8 * (32 - n)) < 256 ^ n * 2 ^ (8 * (32 - n)) :=
              Nat.mul_lt_mul_of_pos_right hlt (by positivity)
          _ = 256 ^ n * 256 ^ (32 - n) := by rw [hpow]
          _ = 256 ^ 32 := by rw [← pow_add]; congr 1; omega
          _ = 2 ^ 256 := by norm_num
      rw [← hword]
      simp only [significant]
      rw [Word.ofBytes, Bytes.toNat_append, Bytes.toNat_replicate_zero, Nat.add_zero,
        List.length_replicate, hlen, hpow, BitVec.toNat_ofNat, Nat.mod_eq_of_lt hsmall,
        Nat.shiftRight_eq_div_pow, Nat.mul_div_cancel _ (by positivity)]
    · cases hbits
  case h_8 => cases hbits
  all_goals
    rw [significant_eq_field (by simp), ← hword]
    exact congrArg some (field_ofNat hbytes hlt).symm

end Ty

/-! ## Reading back -/

namespace Declared

/-- **A value is read back from its bits.** -/
theorem ofBits_of_bits? (types : Declared) {t : Ty} {v : Value} {bits : Nat}
    (hw : t.hasWidth = true) (h : t.bits? v = some bits) : types.ofBits t bits = v := by
  have hlt := Ty.bits?_lt hw h
  have hpos := Ty.storageBytes_bounds (Ty.isValue_of_bits? h) hw
  unfold Ty.bits? at h
  split at h
  case h_1 n x =>
    split at h
    · obtain rfl := Option.some.inj h
      rfl
    · cases h
  case h_2 n x =>
    split at h
    · rename_i hx
      obtain rfl := Option.some.inj h
      rw [Ty.storageBytes] at hpos
      exact congrArg Value.int (signed_ofInt (by omega) (by omega) hx.1 hx.2)
    · cases h
  case h_3 b =>
    obtain rfl := Option.some.inj h
    cases b <;> rfl
  case h_4 a =>
    obtain rfl := Option.some.inj h
    exact congrArg Value.address (by rw [Address.ofNat, BitVec.ofNat_toNat, BitVec.setWidth_eq])
  case h_5 a =>
    obtain rfl := Option.some.inj h
    exact congrArg Value.address (by rw [Address.ofNat, BitVec.ofNat_toNat, BitVec.setWidth_eq])
  case h_6 n data =>
    split at h
    · rename_i hlen
      obtain rfl := Option.some.inj h
      subst hlen
      exact congrArg Value.fixedBytes (Bytes.ofNat_toNat data)
    · cases h
  case h_7 name members ordinal member =>
    split at h
    · rename_i hord
      obtain rfl := Option.some.inj h
      have hclamp : Size.clamp ordinal = ordinal :=
        Size.clamp_of_le (by unfold Size.largest; omega)
      show Value.enum (Size.clamp ordinal) members[Size.clamp ordinal]? = _
      rw [hclamp, hord.2]
    · cases h
  case h_8 => cases h

/-- **A value is read back from its word.** -/
theorem ofWord_of_word? (types : Declared) {t : Ty} {v : Value} {w : Word}
    (hw : t.hasWidth = true) (h : t.word? v = some w) : types.ofWord t w = v :=
  types.ofBits_of_bits? hw (Ty.significant_of_word? hw h)

end Declared

end Solscope
