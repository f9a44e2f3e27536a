import Solscope.Json.Parser
import Solscope.Proofs.Text.Integer
import Solscope.Proofs.Value.Scalar

/-!
# Texts that tell values apart

The texts of two different values of a value type differ. Hexadecimal digits are read back as half
bytes, whether letters are capitals or not, and decimal digits as numbers. Members of enumerations
are told apart by their names, so the names have to differ from each other and from numbers.

* `Bytes.hex_inj`: byte strings in hexadecimal.
* `Address.checksum_inj`: addresses, in which capitals serve as a checksum.
* `Text.toString_int_inj`: integers in decimal.
* `Ty.text_inj`: **values of a value type that have the same text are the same.**
-/

namespace Solscope

/-! ## Hexadecimal texts -/

namespace Bytes

/-- The half bytes of a byte string, the high one first. -/
def halves (data : Bytes) : List Nat := data.flatMap fun b => [b.toNat / 16, b.toNat % 16]

theorem length_halves (data : Bytes) : data.halves.length = 2 * data.length := by
  induction data with
  | nil => rfl
  | cons b rest ih =>
    rw [halves, List.flatMap_cons, List.length_append, List.length_cons, ← halves, ih]
    simp
    omega

theorem halves_lt {data : Bytes} {n : Nat} (h : n ∈ data.halves) : n < 16 := by
  obtain ⟨b, -, hn⟩ := List.mem_flatMap.1 h
  have hb := b.toNat_lt
  simp only [List.mem_cons, List.not_mem_nil, or_false] at hn
  omega

/-- A byte string is told by its half bytes. -/
theorem halves_inj {a b : Bytes} (h : a.halves = b.halves) : a = b := by
  induction a generalizing b with
  | nil =>
    cases b with
    | nil => rfl
    | cons y b => cases h
  | cons x a ih =>
    cases b with
    | nil => cases h
    | cons y b =>
      simp only [halves, List.flatMap_cons, List.cons_append, List.nil_append,
        List.cons.injEq] at h
      obtain ⟨hhigh, hlow, hrest⟩ := h
      have hbyte : x = y := UInt8.toNat_inj.1 (by omega)
      rw [hbyte, ih hrest]

theorem hexDigits_eq (data : Bytes) : data.hexDigits = data.halves.map hexDigit := by
  rw [hexDigits, halves, List.map_flatMap]
  rfl

/-- A half byte is read back from its digit. -/
theorem hexValue?_hexDigit {n : Nat} (h : n < 16) :
    Json.hexValue? (hexDigit n) = some n ∧ Json.hexValue? (hexDigit n).toUpper = some n := by
  have hall : ∀ n < 16, Json.hexValue? (hexDigit n) = some n ∧
      Json.hexValue? (hexDigit n).toUpper = some n := by decide
  exact hall n h

/-- Byte strings with the same values of their digits are the same. -/
theorem eq_of_hexValue? {a b : Bytes}
    (h : a.hexDigits.map Json.hexValue? = b.hexDigits.map Json.hexValue?) : a = b := by
  have hvalues : ∀ data : Bytes, data.hexDigits.map Json.hexValue? = data.halves.map some := by
    intro data
    rw [hexDigits_eq, List.map_map]
    exact List.map_congr_left fun n hn => (hexValue?_hexDigit (halves_lt hn)).1
  rw [hvalues, hvalues] at h
  exact halves_inj (List.map_injective_iff.2 (Option.some_injective _) h)

theorem hex_inj {a b : Bytes} (h : a.hex = b.hex) : a = b := by
  have hdigits : '0' :: 'x' :: a.hexDigits = '0' :: 'x' :: b.hexDigits := String.ofList_injective h
  simp only [List.cons.injEq, true_and] at hdigits
  exact eq_of_hexValue? (congrArg _ hdigits)

end Bytes

namespace Address

/-- Capitals make no difference to the values of digits. -/
theorem hexValue?_cased {halves hash : List Nat} (hhalves : ∀ n ∈ halves, n < 16)
    (hlength : halves.length ≤ hash.length) :
    (List.zipWith (fun (c : Char) h => if 8 ≤ h then c.toUpper else c)
      (halves.map Bytes.hexDigit) hash).map Json.hexValue? = halves.map some := by
  induction halves generalizing hash with
  | nil => rfl
  | cons n rest ih =>
    cases hash with
    | nil => cases hlength
    | cons h hash =>
      obtain ⟨hn, hrest⟩ := List.forall_mem_cons.1 hhalves
      obtain ⟨hlower, hupper⟩ := Bytes.hexValue?_hexDigit hn
      rw [List.map_cons, List.zipWith_cons_cons, List.map_cons, List.map_cons,
        ih hrest (Nat.le_of_succ_le_succ hlength)]
      split
      · rw [hupper]
      · rw [hlower]

theorem toBytes_inj {a b : Address} (h : a.toBytes = b.toBytes) : a = b := by
  have hnumber : ∀ a : Address, a.toBytes.toNat = a.toNat := by
    intro a
    rw [toBytes, Bytes.toNat_ofNat]
    exact Nat.mod_eq_of_lt a.isLt
  apply BitVec.eq_of_toNat_eq
  rw [← hnumber, ← hnumber, h]

/-- The digits of an address have the values of its half bytes. -/
theorem exists_checksum_eq (a : Address) : ∃ digits : List Char,
    a.checksum = String.ofList ('0' :: 'x' :: digits) ∧
      digits.map Json.hexValue? = a.toBytes.halves.map some := by
  refine ⟨_, rfl, ?_⟩
  rw [Bytes.hexDigits_eq]
  -- the hash has 64 half bytes, enough for the 40 digits
  refine hexValue?_cased (fun n hn => Bytes.halves_lt hn) ?_
  change _ ≤ (Bytes.halves (Keccak.hash _)).length
  rw [Bytes.length_halves, Bytes.length_halves, Keccak.length_hash, toBytes, Bytes.length_ofNat]
  decide

/-- **Addresses that have the same text are the same**, whatever the capitals. -/
theorem checksum_inj {a b : Address} (h : a.checksum = b.checksum) : a = b := by
  obtain ⟨digits, htext, hdigits⟩ := a.exists_checksum_eq
  obtain ⟨digits', htext', hdigits'⟩ := b.exists_checksum_eq
  have hsame : '0' :: 'x' :: digits = '0' :: 'x' :: digits' :=
    String.ofList_injective (htext.symm.trans (h.trans htext'))
  simp only [List.cons.injEq, true_and] at hsame
  have hhalves : a.toBytes.halves.map some = b.toBytes.halves.map some := by
    rw [← hdigits, ← hdigits', hsame]
  exact toBytes_inj (Bytes.halves_inj (List.map_injective_iff.2 (Option.some_injective _) hhalves))

end Address

/-! ## Decimal texts -/

namespace Text

theorem SpellsNat.unique {cs : List Char} {m n : Nat} (h : SpellsNat cs m) (h' : SpellsNat cs n) :
    m = n :=
  h.2.2.symm.trans h'.2.2

/-- A text spells one integer at most. -/
theorem SpellsInt.unique {cs : List Char} {m n : Int} (h : SpellsInt cs m) (h' : SpellsInt cs n) :
    m = n := by
  -- a text without a sign begins with a digit
  have hsign : ∀ {c : Char} {cs : List Char} {n : Nat}, SpellsNat (c :: cs) n →
      c.isDigit = true := fun h => h.2.1 _ List.mem_cons_self
  cases h with
  | plain h =>
    cases h' with
    | plain h' => rw [h.unique h']
    | plus _ | minus _ => exact absurd (hsign h) (by decide)
  | plus h =>
    cases h' with
    | plain h' => exact absurd (hsign h') (by decide)
    | plus h' => rw [h.unique h']
  | minus h =>
    cases h' with
    | plain h' => exact absurd (hsign h') (by decide)
    | minus h' => rw [h.unique h']

theorem toString_int_inj {m n : Int} (h : toString m = toString n) : m = n :=
  (spellsInt_toString m).unique (h ▸ spellsInt_toString n)

theorem toString_nat_inj {m n : Nat} (h : toString m = toString n) : m = n :=
  Int.ofNat_inj.1 (toString_int_inj h)

end Text

/-! ## Values -/

namespace Ty

/-- Whether the names of an enumeration's members differ, and none of them is a number. -/
structure NamesApart (members : List String) : Prop where
  distinct : members.Nodup
  not_number : ∀ name ∈ members, ∀ n : Nat, name ≠ toString n

/-- Members whose names differ from each other and from numbers are told apart by their texts. -/
theorem ordinal_inj {members : List String} (h : NamesApart members) {m n : Nat}
    (htext : (members[m]?).getD (toString m) = (members[n]?).getD (toString n)) : m = n := by
  cases hm : members[m]? with
  | none =>
    cases hn : members[n]? with
    | none =>
      rw [hm, hn] at htext
      exact Text.toString_nat_inj htext
    | some name =>
      rw [hm, hn] at htext
      exact absurd htext.symm (h.not_number name (List.mem_of_getElem? hn) m)
  | some name =>
    cases hn : members[n]? with
    | none =>
      rw [hm, hn] at htext
      exact absurd htext (h.not_number name (List.mem_of_getElem? hm) n)
    | some name' =>
      rw [hm, hn] at htext
      obtain rfl : name = name' := htext
      obtain ⟨hlt, hname⟩ := List.getElem?_eq_some_iff.1 hm
      exact (List.getElem?_inj hlt h.distinct).1 (hm.trans hn.symm)

/-- **Values of a value type that have the same text are the same.** -/
theorem text_inj {t : Ty} {v v' : Value} {bits bits' : Nat} (hv : t.bits? v = some bits)
    (hv' : t.bits? v' = some bits')
    (hnames : ∀ name members, t = .enum name members → NamesApart members)
    (htext : v.text = v'.text) : v = v' := by
  cases t with
  | uint =>
    cases v with
    | uint x =>
      cases v' with
      | uint y => rw [Text.toString_nat_inj htext]
      | _ => cases hv'
    | _ => cases hv
  | int =>
    cases v with
    | int x =>
      cases v' with
      | int y => rw [Text.toString_int_inj htext]
      | _ => cases hv'
    | _ => cases hv
  | bool =>
    cases v with
    | bool x =>
      cases v' with
      | bool y => cases x <;> cases y <;> first | rfl | exact absurd htext (by decide)
      | _ => cases hv'
    | _ => cases hv
  | address | contract =>
    cases v with
    | address a =>
      cases v' with
      | address b => rw [Address.checksum_inj htext]
      | _ => cases hv'
    | _ => cases hv
  | fixedBytes =>
    cases v with
    | fixedBytes a =>
      cases v' with
      | fixedBytes b => rw [Bytes.hex_inj htext]
      | _ => cases hv'
    | _ => cases hv
  | enum name members =>
    cases v with
    | enum m member =>
      cases v' with
      | enum n member' =>
        obtain ⟨-, rfl⟩ : m < 256 ∧ member = members[m]? := by
          by_contra hnot
          simp [bits?, hnot] at hv
        obtain ⟨-, rfl⟩ : n < 256 ∧ member' = members[n]? := by
          by_contra hnot
          simp [bits?, hnot] at hv'
        rw [ordinal_inj (hnames name members rfl) htext]
      | _ => cases hv'
    | _ => cases hv
  | bytes | string | struct | structRef | staticArray | dynamicArray | mapping => cases hv

end Ty

end Solscope
