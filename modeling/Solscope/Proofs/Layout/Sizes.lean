import Mathlib.Tactic.Linarith
import Solscope.Proofs.Input.Heads
import Solscope.Proofs.Layout.Places
import Solscope.Proofs.Read.Absent
import Solscope.Proofs.Ty.Sized

/-!
# Counts that stop at the largest size

The storage slots and the head of a type may be more than sizes can count. The slots then are the
largest size: products stop there, and a cursor counts the slots of members in a word, which is
large enough for as many members as there can be. Heads are multiplied in the same way, but those of
the members of a struct have no sum then.

* `Layout.slotsWith_eq_clamp`: the slots of a type are those of the layout rule, or the largest
  size.
* `Declared.slots_and_headSize`: **slots and heads of what descriptors name**, and where there is no
  head.
-/

namespace Solscope

/-! ## Slots -/

namespace Layout

open Ty (slotsWith endOfFields)

/-- Two places are the same, or both have more slots in front than sizes can count. -/
def Agree (a b : Nat) : Prop := a = b ∨ (32 * Size.largest ≤ a ∧ 32 * Size.largest ≤ b)

/-- Slots beyond the largest size do not matter for where the next member goes. -/
theorem Agree.next {a b : Nat} (h : Agree a b) (t : Ty) :
    Agree (start a t + roomOf t (Size.clamp (slots t))) (start b t + room t) := by
  rcases h with rfl | ⟨ha, hb⟩
  · unfold room roomOf
    split
    · exact .inl rfl
    · by_cases hsize : slots t ≤ Size.largest
      · rw [Size.clamp_of_le hsize]
        exact .inl rfl
      · have hclamp : Size.clamp (slots t) = Size.largest := Nat.min_eq_right (by omega)
        rw [hclamp]
        exact .inr ⟨by omega, by omega⟩
  · have hstart := le_start a t
    have hstart' := le_start b t
    exact .inr ⟨by omega, by omega⟩

theorem Agree.clamp_div {a b : Nat} (h : Agree a b) :
    Size.clamp ((a + 31) / 32) = Size.clamp ((b + 31) / 32) := by
  rcases h with rfl | ⟨ha, hb⟩
  · rfl
  · rw [Size.clamp, Size.clamp, Nat.min_eq_right (by omega), Nat.min_eq_right (by omega)]

/-- A member takes no more than the largest size of slots, and one to start at a slot of its own. -/
theorem start_add_roomOf_le (a : Nat) {t : Ty} (hw : t.hasWidth = true) :
    start a t + roomOf t (Size.clamp (slots t)) ≤ a + 32 * (Size.largest + 2) := by
  have hle := Size.clamp_le (slots t)
  unfold start roomOf fit align
  split
  · rename_i ht
    have hk := Ty.storageBytes_bounds ht hw
    split <;> omega
  · omega

/-- A cursor ends after the members of a struct where the rule says, or beyond what sizes count. -/
theorem exists_isAt_endOfFields (ofRef : StructRef → Nat) {fields : List (String × Ty)}
    (hs : ∀ f ∈ fields, slotsWith ofRef f.2 = Size.clamp (slots f.2))
    (hw : ∀ f ∈ fields, f.2.hasWidth = true) {c : SlotCursor} {p : Word} {a b : Nat}
    (hc : c.IsAt p a) (hab : Agree a b) :
    ∃ e, (endOfFields ofRef c fields).IsAt p e ∧ Agree e (fieldsEnd b fields) ∧
      e ≤ a + fields.length * (32 * (Size.largest + 2)) := by
  induction fields generalizing c a b with
  | nil => exact ⟨a, hc, hab, by simp⟩
  | cons f rest ih =>
    obtain ⟨name, t⟩ := f
    obtain ⟨ht, hrest⟩ := List.forall_mem_cons.1 hs
    obtain ⟨hwt, hwrest⟩ := List.forall_mem_cons.1 hw
    have hnext := (hc.reserveSlots hwt (slotsWith ofRef t)).2
    rw [ht] at hnext
    obtain ⟨e, hat, hagree, hle⟩ := ih hrest hwrest hnext (hab.next t)
    have hroom := start_add_roomOf_le a hwt
    refine ⟨e, ?_, ?_, ?_⟩
    · rw [endOfFields, ht]
      exact hat
    · rw [fieldsEnd_cons]
      exact hagree
    · rw [List.length_cons, Nat.succ_mul]
      omega

theorem ceilDiv_le (n : Nat) {group : Nat} (hgroup : 1 ≤ group) : Size.ceilDiv n group ≤ n := by
  unfold Size.ceilDiv
  rw [← Nat.lt_succ_iff, Nat.div_lt_iff_lt_mul hgroup]
  have := Nat.mul_le_mul_left n hgroup
  rw [Nat.succ_mul]
  omega

/-- **The slots of a type are as many as the rule says, or the largest size.** -/
theorem slotsWith_eq_clamp (ofRef : StructRef → Nat) {t : Ty} (ht : t.Sized)
    (hrefs : ∀ r, ¬ t.Inline (.structRef r)) : slotsWith ofRef t = Size.clamp (slots t) := by
  induction t using Ty.byKind with
  | value t hv => cases t <;> first | rfl | cases hv
  | bytes => rfl
  | string => rfl
  | struct name fields ih =>
    obtain ⟨e, hat, hagree, hle⟩ := exists_isAt_endOfFields ofRef
      (fun f hf => ih f hf (ht.field hf) fun r hr => hrefs r (.field hf hr))
      (fun f hf => (ht.field hf).hasWidth) (SlotCursor.isAt_start 0) (.inl rfl)
    -- members are sizes, and so are the slots of each, so a word can count all of them
    have hmembers : fields.length * (32 * (Size.largest + 2)) ≤
        Size.largest * (32 * (Size.largest + 2)) := Nat.mul_le_mul_right _ ht.members_le
    have hlt : (e + 31) / 32 < 2 ^ 256 := by
      unfold Size.largest at hle hmembers
      omega
    have hnat : ((0 : Word) + Word.ofNat ((e + 31) / 32)).toNat = (e + 31) / 32 := by
      rw [show (0 : Word) + Word.ofNat _ = Word.ofNat _ from BitVec.zero_add _]
      exact Word.toNat_ofNat_of_lt hlt
    rw [slotsWith, slots, show SlotCursor.origin = ⟨0, 0⟩ from rfl, hat.align_slot, hnat,
      hagree.clamp_div]
    unfold Size.clamp Size.largest
    omega
  | structRef r => exact absurd (.self _) (hrefs r)
  | staticArray element length ih =>
    rw [slotsWith, slots]
    split
    · rename_i hv
      have hk := Ty.storageBytes_bounds hv ht.ofStatic.hasWidth
      have hper : 1 ≤ 32 / element.storageBytes := Nat.div_pos hk.2 hk.1
      exact (Size.clamp_of_le ((ceilDiv_le length hper).trans ht.length_le)).symm
    · rw [ih ht.ofStatic fun r hr => hrefs r (.staticArray hr), Size.mul, Size.clamp_mul_clamp]
  | dynamicArray element ih => rfl
  | mapping k v => rfl

end Layout

namespace Declared

/--
**Counts stop at the largest size, but some sums of heads have none.** Let a descriptor name a type
of which no struct contains itself other than in a dynamic array or a mapping. Its slots are those
of the layout rule, or the largest size. So is its head that of the encoding, just if the heads of
members of structs inside it are a size together (`Abi.headsFit`); otherwise there is none. A head
that is a size is there and exact, unless an array of no elements asks for too large a sum; a struct
has none whenever its own members' heads are no size together.
-/
theorem slots_and_headSize {types : Declared}
    (hmembers : ∀ e ∈ types.structs, e.2.members.length ≤ Size.largest) {depth unfolds : Nat}
    {contract : Option String} {descriptor : List Char} {t : Ty}
    (ht : types.resolveNested depth { unfolds } contract descriptor = some t)
    (hfinite : t.IsFinite) :
    types.slots t = Size.clamp (Layout.slots t) ∧
      types.headSize? t =
        (if Abi.headsFit t then some (Size.clamp (Abi.headSize t)) else none) ∧
      (Abi.headSize t ≤ Size.largest → Abi.EmptyArraysFit t →
        types.headSize? t = some (Abi.headSize t)) ∧
      ∀ name fields, t = .struct name fields → Abi.dynamic t = false →
        Size.largest < Abi.sumOfHeads fields → types.headSize? t = none := by
  have hrefs : ∀ r, ¬ t.Inline (.structRef r) := fun r =>
    Ty.WellNested.not_inline (nestedIn_of_resolveNested ht List.nodup_nil) hfinite r
  -- no reference is inline, so it does not matter how references count
  obtain ⟨slotsOfRef, hslots⟩ := types.exists_unfoldWithin_eq (fun _ => 1) Ty.slotsWith unfoldLimit
  obtain ⟨headOfRef, hhead⟩ := types.exists_unfoldWithin_eq (fun _ => some 32)
    (headSizeWith? types) unfoldLimit
  have hsize : types.headSize? t =
      if Abi.headsFit t then some (Size.clamp (Abi.headSize t)) else none :=
    (hhead t).trans (Abi.headSizeWith?_eq hrefs)
  refine ⟨?_, hsize, fun hle hempty => ?_, ?_⟩
  · have hsized : t.Sized := sized_of_resolveNested hmembers ht
    exact (hslots t).trans (Layout.slotsWith_eq_clamp _ hsized hrefs)
  · rw [hsize, if_pos (Abi.headsFit_of_le hempty hle), Size.clamp_of_le hle]
  · rintro name fields rfl hstatic hlarge
    have hmany : ¬ Abi.headsFit (.struct name fields) = true := by
      have hstatic : Abi.anyDynamic fields = false := hstatic
      simp only [Abi.headsFit, hstatic, Bool.false_or, Bool.and_eq_true, decide_eq_true_eq]
      omega
    rw [hsize, if_neg hmany]

/-- Two members that take half of all bytes each: the sum of their heads is one more than a size. -/
theorem slots_and_headSize_halves :
    let half : Ty := .staticArray (.uint 32) (2 ^ 58)
    let types := ({} : Declared).addStruct
      ⟨"S", none, [("a", "uint256[288230376151711744]"), ("b", "uint256[288230376151711744]")]⟩
    let t : Ty := .struct "S" [("a", half), ("b", half)]
    let u : Ty := .staticArray half (2 ^ 64 - 1)
    types.resolve? "struct S" none = some t ∧ t.IsFinite ∧
      types.slots t = 2 ^ 59 ∧ Abi.headSize t = 2 ^ 64 ∧ types.headSize? t = none ∧
      types.resolve? "uint256[288230376151711744][18446744073709551615]" none = some u ∧
      u.IsFinite ∧ Abi.headsFit u = true ∧ types.slots u = Size.largest ∧
      types.headSize? u = some Size.largest := by
  intro half types t u
  have hmembers : ∀ e ∈ types.structs, e.2.members.length ≤ Size.largest := by decide
  have ht : types.resolve? "struct S" none = some t := rfl
  have hu : types.resolve? "uint256[288230376151711744][18446744073709551615]" none = some u := rfl
  -- neither has a reference inside
  have hfinite : t.IsFinite := by
    intro name fields hpart r hr
    obtain ⟨rfl, rfl⟩ : name = "S" ∧ fields = _ := by
      simpa [t, half, Ty.parts, Ty.partsOfFields] using hpart
    simpa [half, Ty.parts, Ty.partsOfFields] using hr.mem_parts
  have hfinite' : u.IsFinite := by
    intro name fields hpart
    simp [u, half, Ty.parts] at hpart
  obtain ⟨hslots, -, -, hnone⟩ := slots_and_headSize hmembers ht hfinite
  obtain ⟨hslots', hhead', -⟩ := slots_and_headSize hmembers hu hfinite'
  have hfit : Abi.headsFit u = true := by decide +kernel
  refine ⟨ht, hfinite, ?_, by decide +kernel, hnone _ _ rfl rfl (by decide +kernel), hu, hfinite',
    hfit, ?_, ?_⟩
  · rw [hslots]
    decide +kernel
  · rw [hslots']
    decide +kernel
  · rw [hhead', if_pos hfit]
    decide +kernel

end Declared

end Solscope
