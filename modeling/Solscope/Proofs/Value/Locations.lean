import Solscope.Proofs.Input.RoundTrip
import Solscope.Proofs.Storage.Encoding
import Solscope.Read.Stack

/-!
# One value in all locations

A value of a value type is a number in as many bytes as its type takes. A word of its own has these
bytes at its low end, or at its high end if they are a byte string; a storage slot has them anywhere.
What else is in the word or in the slot does not count.

* `Ty.Means`: the value that a number means, kind by kind.
* `Ty.IsIn`, `Word.HasBytes`: a word or a slot has the bytes of a number, among others.
* `Declared.means_ofBits`: the number in the bytes of a value is read as what it means.
* `Declared.reads_alike`: **a value reads the same wherever it lives.**
-/

namespace Solscope

open Abi

/-! ## What a number means -/

namespace Ty

/-- The value that the number in the bytes of a value type means. -/
inductive Means (r : Nat) : Ty → Value → Prop
  | uint {n : Nat} : Means r (.uint n) (.uint r)
  /-- The highest bit of a signed number is the sign. -/
  | positive {n : Nat} : r < 2 ^ (8 * n - 1) → Means r (.int n) (.int r)
  | negative {n : Nat} : 2 ^ (8 * n - 1) ≤ r → Means r (.int n) (.int (r - 2 ^ (8 * n)))
  | bool : Means r .bool (.bool (r ≠ 0))
  | address {a : Address} : a.toBytes.toNat = r → Means r .address (.address a)
  | contract {name : String} {a : Address} :
      a.toBytes.toNat = r → Means r (.contract name) (.address a)
  | fixedBytes {n : Nat} {data : Bytes} :
      data.length = n → data.toNat = r → Means r (.fixedBytes n) (.fixedBytes data)
  /-- A member has a name if there are as many. -/
  | enum {name : String} {members : List String} :
      Means r (.enum name members) (.enum r members[r]?)

/-- The bytes of a word that count for a value of its own. -/
def ownBytes (t : Ty) (w : Word) : Bytes :=
  match t with
  | fixedBytes n => w.toBytes.take n
  | t => w.toBytes.drop (32 - t.storageBytes)

/-- A word has the number `r` in the bytes that count, and anything in the others. -/
def IsIn (t : Ty) (r : Nat) (w : Word) : Prop := (t.ownBytes w).toNat = r

end Ty

/-- A word has the number `r` in the `length` bytes that lie `offset` bytes above its lowest one. -/
def Word.HasBytes (w : Word) (offset length r : Nat) : Prop :=
  Bytes.toNat ((w.toBytes.drop (32 - (offset + length))).take length) = r

namespace Word

variable {w : Word} {offset length r : Nat}

theorem toNat_toBytes (w : Word) : w.toBytes.toNat = w.toNat := by
  have hlt : w.toNat < Nat.pow 256 32 := w.isLt
  rw [toBytes, Bytes.toNat_ofNat, Nat.mod_eq_of_lt hlt]

theorem toNat_drop_toBytes (w : Word) {n : Nat} (h : n ≤ 32) :
    Bytes.toNat (w.toBytes.drop (32 - n)) = w.toNat % 256 ^ n := by
  have hcount : 32 - (32 - n) = n := by omega
  rw [Bytes.toNat_drop, toNat_toBytes, length_toBytes, hcount]

/-- A field of a word is the number in its bytes. -/
theorem field_eq_iff (h : offset + length ≤ 32) :
    w.field offset length = r ↔ w.HasBytes offset length r := by
  have hrest : 32 - (32 - (offset + length)) - length = offset := by omega
  have hlow : Bytes.toNat ((w.toBytes.drop (32 - (offset + length))).take length) =
      w.toNat % 256 ^ (offset + length) / 256 ^ offset := by
    rw [Bytes.toNat_take, toNat_drop_toBytes w h, List.length_drop, length_toBytes, hrest]
  have hpow : (256 : Nat) ^ (offset + length) = 256 ^ offset * 256 ^ length := pow_add ..
  rw [HasBytes, hlow, hpow, Nat.mod_mul_right_div_self, field, Nat.shiftRight_eq_div_pow,
    ← Bytes.pow_eq]
  exact Iff.rfl

end Word

namespace Ty

/-- The bits that are taken from a word are the number in the bytes that count. -/
theorem significant_eq_iff {t : Ty} {w : Word} {r : Nat} (ht : t.isValue = true)
    (hw : t.hasWidth = true) : t.significant w = r ↔ t.IsIn r w := by
  have hwidth := storageBytes_bounds ht hw
  by_cases hfixed : ∃ n, t = fixedBytes n
  · obtain ⟨n, rfl⟩ := hfixed
    have hnat : Bytes.toNat (w.toBytes.take n) = w.toNat / 256 ^ (32 - n) := by
      rw [Bytes.toNat_take, Word.toNat_toBytes, Word.length_toBytes]
    rw [IsIn, ownBytes, hnat, significant, Nat.shiftRight_eq_div_pow, Bytes.pow_eq]
  · have hne : ∀ n, t ≠ fixedBytes n := fun n hn => hfixed ⟨n, hn⟩
    have hown : t.ownBytes w = w.toBytes.drop (32 - t.storageBytes) := by
      cases t with
      | fixedBytes n => exact absurd rfl (hne n)
      | _ => rfl
    have hfield : w.field 0 t.storageBytes = w.toNat % 256 ^ t.storageBytes := rfl
    rw [IsIn, hown, Word.toNat_drop_toBytes w hwidth.2, significant_eq_field hne, hfield]

end Ty

namespace Declared

variable {types : Declared} {t : Ty} {r : Nat}

theorem signed_of_lt {n r : Nat} (h0 : 1 ≤ n) (hn : n ≤ 32) (hr : r < 2 ^ (8 * n)) :
    signed (8 * n) r = if r < 2 ^ (8 * n - 1) then (r : Int) else r - 2 ^ (8 * n) := by
  have hpow : 2 ^ (8 * n) = 2 * 2 ^ (8 * n - 1) := by
    rw [← Nat.pow_succ']
    congr 1
    omega
  rw [signed_eq_toInt (by omega) (by omega) hr, BitVec.toInt_eq_toNat_cond, BitVec.toNat_ofNat,
    Nat.mod_eq_of_lt hr]
  by_cases hsign : r < 2 ^ (8 * n - 1)
  · rw [if_pos hsign, if_pos (by omega)]
  · rw [if_neg hsign, if_neg (by omega)]
    push_cast
    rfl

/-- **The number in the bytes of a value is read as what it means.** -/
theorem means_ofBits (types : Declared) (ht : t.isValue = true) (hw : t.hasWidth = true)
    (hr : r < 256 ^ t.storageBytes) : t.Means r (types.ofBits t r) := by
  have hwidth := Ty.storageBytes_bounds ht hw
  have haddress (h : r < 256 ^ 20) : (Address.ofNat r).toBytes.toNat = r := by
    have hlt : r < 2 ^ 160 := by
      rw [Bytes.pow_eq] at h
      exact h
    have hnat : (Address.ofNat r).toNat = r := by
      rw [Address.ofNat, BitVec.toNat_ofNat, Nat.mod_eq_of_lt hlt]
    rw [Address.toBytes, Bytes.toNat_ofNat, hnat]
    exact Nat.mod_eq_of_lt h
  cases t with
  | uint n => exact .uint
  | int n =>
    rw [Ty.storageBytes] at hr hwidth
    rw [Bytes.pow_eq] at hr
    show Ty.Means r (.int n) (.int (signed (8 * n) r))
    rw [signed_of_lt hwidth.1 hwidth.2 hr]
    by_cases hsign : r < 2 ^ (8 * n - 1)
    · rw [if_pos hsign]
      exact .positive hsign
    · rw [if_neg hsign]
      exact .negative (Nat.le_of_not_lt hsign)
  | bool =>
    have hbool : types.ofBits .bool r = .bool (decide (r ≠ 0)) := by
      show Value.bool (r != 0) = _
      congr 1
      by_cases h0 : r = 0 <;> simp [h0]
    rw [hbool]
    exact .bool
  | address => exact .address (haddress hr)
  | contract name => exact .contract (haddress hr)
  | fixedBytes n =>
    have hnat : (Bytes.ofNat n r).toNat = r := by
      rw [Bytes.toNat_ofNat]
      exact Nat.mod_eq_of_lt hr
    exact .fixedBytes (Bytes.length_ofNat n r) hnat
  | enum name members =>
    have hsize : Size.clamp r = r := by
      rw [Ty.storageBytes] at hr
      exact Size.clamp_of_le (by unfold Size.largest; omega)
    show Ty.Means r (.enum name members) (.enum (Size.clamp r) members[Size.clamp r]?)
    rw [hsize]
    exact .enum
  | bytes | string | struct | structRef | staticArray | dynamicArray | mapping => cases ht

/-! ## Where a value lives -/

variable {w : Word}

theorem ofWord_of_isIn (types : Declared) (ht : t.isValue = true) (hw : t.hasWidth = true)
    (h : t.IsIn r w) : types.ofWord t w = types.ofBits t r := by
  rw [ofWord, (Ty.significant_eq_iff ht hw).2 h]

/-- A value on the stack is its word. -/
theorem readStack_of_isValue (ht : t.isValue = true) {view : StackView} {index : Nat}
    (h : view.stack[index]? = some w) :
    types.readStack view t index .stack = .ok (types.ofWord t w) := by
  obtain ⟨hlt, hget⟩ := List.getElem?_eq_some_iff.1 h
  have hslots : t.stackSlots .stack = 1 := by cases t <;> rfl
  have hwords : view.words index 1 = .ok [w] := by
    rw [StackView.words, if_pos (by omega), List.drop_eq_getElem_cons hlt, hget]
    rfl
  rw [readStack, hslots, hwords]
  simp [bind, Except.bind, pure, Except.pure, ht]

/-- A value in memory is the word that the pointer leads to. -/
theorem readMemory_of_isValue (ht : t.isValue = true) {memory : Bytes} {limits : Limits}
    {pointer : Nat} (h : HasAt memory pointer w.toBytes) :
    types.readMemory memory limits t pointer = .ok (types.ofWord t w) := by
  have hslice := h.slice
  rw [Word.length_toBytes] at hslice
  have hword : Memory.word memory pointer = w := by
    rw [Memory.word, Bytes.paddedSlice, hslice, Word.length_toBytes]
    exact (congrArg Word.ofBytes (List.append_nil _)).trans w.ofBytes_toBytes
  rw [← hword]
  exact readMemoryWith_of_isValue ht pointer

/-- A value in encoded input is the word at the cursor. -/
theorem readInput_of_isValue (ht : t.isValue = true) {input : Bytes} {limits : Limits}
    {base offset : Nat} (h : HasAt input offset w.toBytes) :
    (types.readInput input limits t base ⟨offset⟩).map Prod.fst = .ok (types.ofWord t w) := by
  have hhead : types.readHead input base t ⟨offset⟩ = .ok (offset, ⟨Size.add offset 32⟩) := by
    cases t with
    | bytes | string | struct | structRef | staticArray | dynamicArray | mapping => cases ht
    | _ => rfl
  obtain ⟨ofRef, heq⟩ := exists_readInput_eq types input limits
  rw [heq, readInputWith_of_isValue ht, hhead]
  simp only [Except.bind, Input.word_of_hasAt h]
  rfl

/-- A value in storage is the field of its slot, if it ends inside the slot. -/
theorem readStorage_of_isValue (ht : t.isValue = true) {view : StorageView} {slot : Word}
    {offset : Nat} (h : view.word slot = .ok w) (hoffset : offset + t.storageBytes ≤ 32) :
    (types.readStorage view t ⟨slot, offset⟩).map Prod.fst =
      .ok (types.ofBits t (w.field offset t.storageBytes)) := by
  have hfit : (SlotCursor.mk slot offset).fit t.storageBytes = ⟨slot, offset⟩ :=
    if_neg (Nat.not_lt_of_le hoffset)
  obtain ⟨ofRef, heq⟩ := exists_readStorage_eq types view
  rw [heq, readStorageWith_scalar ht]
  simp only [SlotCursor.claim, hfit, h]
  rfl

/--
**A value reads the same wherever it lives.** A number in as many bytes as a value type takes means
a value. That value is read from every word with these bytes where they count, be the word on the
stack, in memory or in encoded input, and from every storage slot with these bytes at the offset of
the cursor, whatever the other bytes are.
-/
theorem reads_alike (types : Declared) (ht : t.isValue = true) (hw : t.hasWidth = true)
    (hr : r < 256 ^ t.storageBytes) :
    ∃ v, t.Means r v ∧
      (∀ w, t.IsIn r w → types.ofWord t w = v ∧
        (∀ (view : StackView) index, view.stack[index]? = some w →
          types.readStack view t index .stack = .ok v) ∧
        (∀ memory limits pointer, HasAt memory pointer w.toBytes →
          types.readMemory memory limits t pointer = .ok v) ∧
        ∀ input limits base offset, HasAt input offset w.toBytes →
          (types.readInput input limits t base ⟨offset⟩).map Prod.fst = .ok v) ∧
      ∀ (view : StorageView) slot w offset, view.word slot = .ok w →
        offset + t.storageBytes ≤ 32 → w.HasBytes offset t.storageBytes r →
          (types.readStorage view t ⟨slot, offset⟩).map Prod.fst = .ok v := by
  refine ⟨types.ofBits t r, means_ofBits types ht hw hr, ?_, ?_⟩
  · intro w hin
    have hword := ofWord_of_isIn types ht hw hin
    refine ⟨hword, ?_, ?_, ?_⟩
    · intro view index hstack
      rw [readStack_of_isValue ht hstack, hword]
    · intro memory limits pointer hmemory
      rw [readMemory_of_isValue ht hmemory, hword]
    · intro input limits base offset hinput
      rw [readInput_of_isValue ht hinput, hword]
  · intro view slot w offset hslot hoffset hbytes
    rw [readStorage_of_isValue ht hslot hoffset, (Word.field_eq_iff hoffset).2 hbytes]

/-- Two bytes below zero, with other bytes around them. -/
theorem reads_alike_negative :
    let t : Ty := .int 2
    let w : Word := 0xabcdef0000000000000000000000000000000000000000000000000000ff00fffe
    let view : StorageView := ⟨fun _ slot => .ok (if slot = 3 then 0x1122fffe33 else 0), 0, [], {}⟩
    t.isValue = true ∧ t.hasWidth = true ∧ 0xfffe < 256 ^ t.storageBytes ∧ t.IsIn 0xfffe w ∧
      ({} : Declared).ofWord t w = .int (-2) ∧
      ({} : Declared).readMemory ([9, 9] ++ w.toBytes ++ [9]) {} t 2 = .ok (.int (-2)) ∧
      (({} : Declared).readInput ([9] ++ w.toBytes) {} t 0 ⟨1⟩).map Prod.fst = .ok (.int (-2)) ∧
      (({} : Declared).readStorage view t ⟨3, 1⟩).map Prod.fst = .ok (.int (-2)) := by
  intro t w view
  have hin : t.IsIn 0xfffe w := show Bytes.toNat (w.toBytes.drop 30) = 0xfffe by decide +kernel
  have hslot : Word.HasBytes 0x1122fffe33 1 2 0xfffe :=
    show Bytes.toNat ((Word.toBytes 0x1122fffe33).drop 29 |>.take 2) = 0xfffe by decide +kernel
  have hr : 0xfffe < 256 ^ t.storageBytes := by decide
  obtain ⟨v, hv, hword, hstorage⟩ := reads_alike ({} : Declared) (t := t) rfl rfl hr
  have hvalue : v = .int (-2) := by
    change Ty.Means 0xfffe (.int 2) v at hv
    cases hv with
    | positive hsign => exact absurd hsign (by decide)
    | negative => rfl
  subst hvalue
  obtain ⟨hself, -, hmemory, hinput⟩ := hword w hin
  exact ⟨rfl, rfl, hr, hin, hself, hmemory _ _ 2 ⟨[9, 9], [9], rfl, rfl⟩,
    hinput _ _ 0 1 ⟨[9], [], (List.append_nil _).symm, rfl⟩,
    hstorage view 3 _ 1 rfl (by decide) hslot⟩

end Declared

end Solscope
