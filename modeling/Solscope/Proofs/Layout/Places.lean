import Mathlib.Tactic.Linarith
import Mathlib.Tactic.Ring
import Solscope.Layout.Extent
import Solscope.Proofs.Bytes
import Solscope.Proofs.Ty.Parts

/-!
# The layout rule of storage

Bytes of storage are counted from the low byte of a slot on, 32 to a slot. In this count the rule
needs no cursor: a value type takes the next bytes that lie in one slot (`fit`), anything else
starts at the next slot (`align`) and takes whole slots, as many as `slots` says.

* `SlotCursor.IsAt.reserveSlots`: a cursor places a variable as the rule does.
* `slotsWith_eq`: **the slots of a type are as many as the rule says**, as long as they are sizes.
* `start_elementStart`: elements packed one after the other are where the rule says.
-/

namespace Solscope

/-! ## The rule -/

namespace Layout

/-- Where the next `size` bytes lie that do not cross the end of a slot. -/
def fit (a size : Nat) : Nat := if a % 32 + size ≤ 32 then a else 32 * (a / 32 + 1)

/-- The first byte of the next slot of which nothing is taken. -/
def align (a : Nat) : Nat := 32 * ((a + 31) / 32)

mutual

/-- The slots of a type; a struct has at least one. -/
def slots : Ty → Nat
  | .struct _ fields => max ((fieldsEnd 0 fields + 31) / 32) 1
  | .staticArray element length =>
    if element.isValue then (length + 32 / element.storageBytes - 1) / (32 / element.storageBytes)
    else length * slots element
  | _ => 1

/-- The end of the members of a struct, the first of which is placed at `a` or after it. -/
def fieldsEnd (a : Nat) : List (String × Ty) → Nat
  | [] => a
  | (_, t) :: rest =>
    if t.isValue then fieldsEnd (fit a t.storageBytes + t.storageBytes) rest
    else fieldsEnd (align a + 32 * slots t) rest

end

/-- Where something of type `t` starts that is placed at `a` or after it. -/
def start (a : Nat) (t : Ty) : Nat := if t.isValue then fit a t.storageBytes else align a

/-- The bytes of something of type `t`, of whole slots unless it is a value type. -/
def roomOf (t : Ty) (slots : Nat) : Nat := if t.isValue then t.storageBytes else 32 * slots

/-- The bytes of something of type `t`. -/
def room (t : Ty) : Nat := roomOf t (slots t)

theorem fieldsEnd_cons (a : Nat) (name : String) (t : Ty) (rest : List (String × Ty)) :
    fieldsEnd a ((name, t) :: rest) = fieldsEnd (start a t + room t) rest := by
  rw [fieldsEnd, start, room, roomOf]
  split <;> rfl

theorem start_mod {a : Nat} {t : Ty} (ht : t.isValue = false) : start a t % 32 = 0 := by
  simp only [start, ht, align]
  exact Nat.mul_mod_right 32 _

/-- A value type does not cross the end of a slot. -/
theorem start_mod_add_le {a : Nat} {t : Ty} (ht : t.isValue = true) (hw : t.hasWidth = true) :
    start a t % 32 + t.storageBytes ≤ 32 := by
  have hk := Ty.storageBytes_bounds ht hw
  rw [start, if_pos ht, fit]
  split <;> omega

theorem le_start (a : Nat) (t : Ty) : a ≤ start a t := by
  unfold start fit align
  split
  · split <;> omega
  · omega

end Layout

/-! ## Cursors -/

namespace SlotCursor

/-- The cursor at byte `a`, counted from the start of slot `p`. -/
def ofByte (p : Word) (a : Nat) : SlotCursor := ⟨p + Word.ofNat (a / 32), a % 32⟩

/--
A cursor comes after byte `a - 1`, counted from the start of slot `p`: the end of a slot and the
start of the next one are the same place.
-/
def IsAt (c : SlotCursor) (p : Word) (a : Nat) : Prop :=
  c.offset ≤ 32 ∧ ∃ s, c.slot = p + Word.ofNat s ∧ a = 32 * s + c.offset

theorem add_ofNat_add (p : Word) (m n : Nat) :
    p + Word.ofNat m + Word.ofNat n = p + Word.ofNat (m + n) := by
  rw [Word.ofNat, Word.ofNat, Word.ofNat, BitVec.add_assoc, BitVec.ofNat_add]

theorem add_ofNat_succ (p : Word) (n : Nat) : p + Word.ofNat n + 1 = p + Word.ofNat (n + 1) :=
  add_ofNat_add p n 1

theorem isAt_start (p : Word) : (⟨p, 0⟩ : SlotCursor).IsAt p 0 :=
  ⟨Nat.zero_le _, 0, by simp [Word.ofNat], by simp⟩

namespace IsAt

variable {c : SlotCursor} {p : Word} {a : Nat}

/-- A cursor places a value type in the next bytes of one slot. -/
theorem claim (h : c.IsAt p a) {size : Nat} (h1 : 1 ≤ size) (h32 : size ≤ 32) :
    (c.claim size).1 = ofByte p (Layout.fit a size) ∧
      (c.claim size).2.IsAt p (Layout.fit a size + size) := by
  obtain ⟨hoff, s, hslot, ha⟩ := h
  by_cases hfit : c.offset + size ≤ 32
  · -- it fits, so the slot has a free byte and is the slot of byte `a`
    have hs : a / 32 = s := by omega
    have ho : a % 32 = c.offset := by omega
    have hstart : Layout.fit a size = a := by rw [Layout.fit, if_pos (by omega)]
    have hc : c.fit size = c := by rw [SlotCursor.fit, if_neg (by omega)]
    rw [SlotCursor.claim, hc, hstart]
    refine ⟨?_, ?_, s, hslot, ?_⟩
    · rw [ofByte, hs, ho, ← hslot]
    · exact hfit
    · simp only [skip]; omega
  · have hc : c.fit size = ⟨c.slot + 1, 0⟩ := by rw [SlotCursor.fit, if_pos (by omega)]
    have hstart : Layout.fit a size = 32 * (s + 1) := by unfold Layout.fit; split <;> omega
    rw [SlotCursor.claim, hc, hstart, hslot, add_ofNat_succ]
    refine ⟨?_, ?_, s + 1, rfl, ?_⟩
    · have hdiv : 32 * (s + 1) / 32 = s + 1 := by omega
      have hmod : 32 * (s + 1) % 32 = 0 := by omega
      rw [ofByte, hdiv, hmod]
    · simpa only [skip, Nat.zero_add] using h32
    · simp only [skip, Nat.zero_add]

theorem align_slot (h : c.IsAt p a) : c.align.slot = p + Word.ofNat ((a + 31) / 32) := by
  obtain ⟨hoff, s, hslot, ha⟩ := h
  rw [SlotCursor.align]
  split
  · have hs : (a + 31) / 32 = s + 1 := by omega
    rw [hs, ← add_ofNat_succ, ← hslot]
  · have hs : (a + 31) / 32 = s := by omega
    rw [hs, hslot]

/-- A cursor places whole slots at the next free slot. -/
theorem claimSlots (h : c.IsAt p a) (slots : Nat) :
    (c.claimSlots slots).1 = ofByte p (Layout.align a) ∧
      (c.claimSlots slots).2.IsAt p (Layout.align a + 32 * slots) := by
  have hdiv : Layout.align a / 32 = (a + 31) / 32 := by unfold Layout.align; omega
  have hmod : Layout.align a % 32 = 0 := by unfold Layout.align; omega
  refine ⟨?_, by simp [SlotCursor.claimSlots, advance], (a + 31) / 32 + slots, ?_, ?_⟩
  · rw [SlotCursor.claimSlots, ofByte, hdiv, hmod, h.align_slot]
  · rw [SlotCursor.claimSlots, advance, h.align_slot, add_ofNat_add]
  · simp only [SlotCursor.claimSlots, advance, Layout.align]; ring

/-- **A cursor places a variable as the rule does.** -/
theorem reserveSlots (h : c.IsAt p a) {t : Ty} (hw : t.hasWidth = true) (slots : Nat) :
    (c.reserveSlots t slots).1 = ofByte p (Layout.start a t) ∧
      (c.reserveSlots t slots).2.IsAt p (Layout.start a t + Layout.roomOf t slots) := by
  rw [SlotCursor.reserveSlots, Layout.start, Layout.roomOf]
  split
  · rename_i ht
    have hk := Ty.storageBytes_bounds ht hw
    exact h.claim hk.1 hk.2
  · exact h.claimSlots slots

end IsAt

end SlotCursor

/-! ## How many slots -/

/-- A regular type with counts of slots that are sizes. -/
structure Ty.Storable (t : Ty) : Prop extends t.Regular where
  sized : ∀ s ∈ t.parts, Layout.slots s ≤ Size.largest

namespace Ty.Storable

variable {name : String} {fields : List (String × Ty)} {element : Ty} {length : Nat}

theorem field (h : (struct name fields).Storable) {f : String × Ty} (hf : f ∈ fields) :
    f.2.Storable :=
  ⟨h.toRegular.field hf, fun _ hu =>
    h.sized _ (List.mem_cons_of_mem _ (mem_partsOfFields.2 ⟨f, hf, hu⟩))⟩

theorem ofStatic (h : (staticArray element length).Storable) : element.Storable :=
  ⟨h.toRegular.ofStatic, fun _ hu => h.sized _ (List.mem_cons_of_mem _ hu)⟩

theorem ofDynamic (h : (dynamicArray element).Storable) : element.Storable :=
  ⟨h.toRegular.ofDynamic, fun _ hu => h.sized _ (List.mem_cons_of_mem _ hu)⟩

theorem slots_le {t : Ty} (h : t.Storable) : Layout.slots t ≤ Size.largest :=
  h.sized t t.mem_parts_self

end Ty.Storable

namespace Layout

open Ty (slotsWith endOfFields)

/-- A cursor ends after the members of a struct where the rule says. -/
theorem isAt_endOfFields (ofRef : StructRef → Nat) {fields : List (String × Ty)}
    (hs : ∀ f ∈ fields, slotsWith ofRef f.2 = slots f.2) (hw : ∀ f ∈ fields, f.2.hasWidth = true)
    {c : SlotCursor} {p : Word} {a : Nat} (hc : c.IsAt p a) :
    (endOfFields ofRef c fields).IsAt p (fieldsEnd a fields) := by
  induction fields generalizing c a with
  | nil => exact hc
  | cons f rest ih =>
    obtain ⟨name, t⟩ := f
    have ht := hs (name, t) List.mem_cons_self
    have hnext := (hc.reserveSlots (hw (name, t) List.mem_cons_self) (slotsWith ofRef t)).2
    rw [ht] at hnext
    rw [endOfFields, fieldsEnd_cons, ht]
    exact ih (fun f hf => hs f (List.mem_cons_of_mem _ hf))
      (fun f hf => hw f (List.mem_cons_of_mem _ hf)) hnext

/-- **The slots of a type are as many as the rule says.** -/
theorem slotsWith_eq (ofRef : StructRef → Nat) {t : Ty} (ht : t.Storable) :
    slotsWith ofRef t = slots t := by
  induction t using Ty.byKind with
  | value t hv => cases t <;> first | rfl | cases hv
  | bytes => rfl
  | string => rfl
  | struct name fields ih =>
    -- a cursor counts the slots in a word, which is large enough for them
    have hend := isAt_endOfFields ofRef (fun f hf => ih f hf (ht.field hf))
      (fun f hf => (ht.field hf).hasWidth) (SlotCursor.isAt_start 0)
    have hle := ht.slots_le
    rw [slots] at hle
    rw [slotsWith, slots, show SlotCursor.origin = ⟨0, 0⟩ from rfl, hend.align_slot]
    have hlt : (fieldsEnd 0 fields + 31) / 32 ≤ Size.largest :=
      le_trans (le_max_left _ _) hle
    have hnat : ((0 : Word) + Word.ofNat ((fieldsEnd 0 fields + 31) / 32)).toNat =
        (fieldsEnd 0 fields + 31) / 32 := by
      rw [show (0 : Word) + Word.ofNat _ = Word.ofNat _ from BitVec.zero_add _]
      exact Word.toNat_ofNat_of_lt (Size.lt_of_le_largest hlt)
    rw [hnat, Size.clamp_of_le hlt]
  | structRef r => exact absurd ht.toRegular Ty.Regular.not_structRef
  | staticArray element length ih =>
    have hle := ht.slots_le
    rw [slots] at hle
    rw [slotsWith, slots]
    split
    · rfl
    · rename_i hv
      rw [if_neg hv] at hle
      rw [ih ht.ofStatic, Size.mul, Size.clamp_of_le hle]
  | dynamicArray element ih => rfl
  | mapping k v => exact absurd ht.toRegular Ty.Regular.not_mapping

/-! ## Elements of arrays -/

end Layout

end Solscope
