import Solscope.Read.Error
import Solscope.Size
import Solscope.Text.Utf8
import Solscope.Value

/-!
# Values within limits

* `Value.parts`: a value and all values inside it.
* `Value.Within`: no array, mapping or byte string anywhere inside is longer than the limits allow.
* `Limits.AreSizes`: the limits are counts that a machine can hold.
* `Limits.itemCount_eq_ok_iff`, `Limits.byteCount_eq_ok_iff`: how much storage is read.
-/

namespace Solscope

/-- The limits are sizes. -/
structure Limits.AreSizes (limits : Limits) : Prop where
  array : limits.array ≤ Size.largest
  mapping : limits.mapping ≤ Size.largest
  bytes : limits.bytes ≤ Size.largest

namespace Limits

variable {limits : Limits} {length n : Nat}

/-- As many elements are read as the limits allow, if memory has room for them. -/
theorem itemCount_eq_ok_iff :
    limits.itemCount length = .ok n ↔ n = min length limits.array ∧ n ≤ roomForItems := by
  unfold itemCount
  split
  · rw [Except.ok.injEq]
    omega
  · simp only [reduceCtorEq, false_iff]
    omega

/-- As many bytes are read as the limits allow, if memory has room for them. -/
theorem byteCount_eq_ok_iff :
    limits.byteCount length = .ok n ↔ n = min length limits.bytes ∧ n ≤ roomForBytes := by
  unfold byteCount
  split
  · rw [Except.ok.injEq]
    omega
  · simp only [reduceCtorEq, false_iff]
    omega

end Limits

namespace Value

mutual

/-- A value and all values inside it. -/
def parts : Value → List Value
  | struct fields => struct fields :: partsOfPairs fields
  | array items => array items :: partsOfItems items
  | mapping entries => mapping entries :: partsOfPairs entries
  | v => [v]

/-- The values inside the items of an array. -/
def partsOfItems : List Value → List Value
  | [] => []
  | v :: rest => parts v ++ partsOfItems rest

/-- The values inside members or entries. -/
def partsOfPairs : List (String × Value) → List Value
  | [] => []
  | (_, v) :: rest => parts v ++ partsOfPairs rest

end

theorem mem_parts_self (v : Value) : v ∈ v.parts := by cases v <;> simp [parts]

theorem mem_partsOfItems {w : Value} {items : List Value} :
    w ∈ partsOfItems items ↔ ∃ v ∈ items, w ∈ v.parts := by
  induction items with
  | nil => simp [partsOfItems]
  | cons v rest ih => simp [partsOfItems, ih]

theorem mem_partsOfPairs {w : Value} {pairs : List (String × Value)} :
    w ∈ partsOfPairs pairs ↔ ∃ pair ∈ pairs, w ∈ pair.2.parts := by
  induction pairs with
  | nil => simp [partsOfPairs]
  | cons pair rest ih =>
    obtain ⟨name, v⟩ := pair
    simp [partsOfPairs, ih]

theorem mem_parts_of_item {v w : Value} {items : List Value} (hv : v ∈ items) (hw : w ∈ v.parts) :
    w ∈ (array items).parts :=
  List.mem_cons_of_mem _ (mem_partsOfItems.2 ⟨v, hv, hw⟩)

theorem mem_parts_of_member {w : Value} {fields : List (String × Value)} {f : String × Value}
    (hf : f ∈ fields) (hw : w ∈ f.2.parts) : w ∈ (struct fields).parts :=
  List.mem_cons_of_mem _ (mem_partsOfPairs.2 ⟨f, hf, hw⟩)

/-- Whether a value itself is not longer than the limits allow. -/
def fits (limits : Limits) : Value → Bool
  | bytes data => data.length ≤ limits.bytes
  | string text => (Text.utf8 text).length ≤ limits.bytes
  | array items => items.length ≤ limits.array
  | mapping entries => entries.length ≤ limits.mapping
  | _ => true

/-- Nothing inside a value is longer than the limits allow. -/
def Within (limits : Limits) (v : Value) : Prop := ∀ w ∈ v.parts, w.fits limits = true

instance (limits : Limits) (v : Value) : Decidable (v.Within limits) :=
  inferInstanceAs (Decidable (∀ w ∈ v.parts, w.fits limits = true))

namespace Within

variable {limits : Limits}

theorem fits {v : Value} (h : v.Within limits) : v.fits limits = true := h v v.mem_parts_self

theorem bytes_le {data : Bytes} (h : (bytes data).Within limits) : data.length ≤ limits.bytes := by
  simpa [Value.fits] using h.fits

theorem string_le {text : String} (h : (string text).Within limits) :
    (Text.utf8 text).length ≤ limits.bytes := by
  simpa [Value.fits] using h.fits

theorem array_le {items : List Value} (h : (array items).Within limits) :
    items.length ≤ limits.array := by
  simpa [Value.fits] using h.fits

theorem item {items : List Value} (h : (array items).Within limits) {v : Value} (hv : v ∈ items) :
    v.Within limits := fun w hw => h w (mem_parts_of_item hv hw)

theorem member {fields : List (String × Value)} (h : (struct fields).Within limits)
    {f : String × Value} (hf : f ∈ fields) : f.2.Within limits := fun w hw =>
  h w (mem_parts_of_member hf hw)

end Within

end Value

end Solscope
