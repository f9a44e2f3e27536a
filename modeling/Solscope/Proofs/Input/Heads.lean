import Solscope.Proofs.Input.Encoding

/-!
# How long heads are

The head of a type that is not out of line is as long as its encoding. Sizes may be too small to
count it: products stop at the largest size, but the heads of the members of a struct are added only
if the sum is a size.

* `Abi.isDynamic_eq`: which types are out of line.
* `Abi.headSize`: the bytes of a head, however many.
* `Abi.headSize_of_encode`: they are those of the encoding.
* `Abi.headsFit`: whether all sums that are asked for are sizes.
* `Abi.headSizeWith?_eq`: **a head is as long as it should be, or the largest size, just if the sums
  are sizes.**
* `Abi.headSize?_of_encode`: what has an encoding has a head, unless an array of no elements asks
  for too large a sum.
-/

namespace Solscope

namespace Size

theorem clamp_mul_clamp (m n : Nat) : clamp (m * clamp n) = clamp (m * n) := by
  by_cases hn : n ≤ largest
  · rw [clamp_of_le hn]
  · have hclamp : clamp n = largest := Nat.min_eq_right (by omega)
    rw [hclamp]
    rcases Nat.eq_zero_or_pos m with rfl | hm
    · rw [Nat.zero_mul, Nat.zero_mul]
    · have hleft : largest ≤ m * largest := Nat.le_mul_of_pos_left _ hm
      have hright : largest ≤ m * n := (by omega : largest ≤ n).trans (Nat.le_mul_of_pos_left _ hm)
      rw [clamp, clamp, Nat.min_eq_right hleft, Nat.min_eq_right hright]

theorem clamp_add_clamp (m n : Nat) : clamp (clamp m + clamp n) = clamp (m + n) := by
  unfold clamp
  omega

theorem clamp_clamp (n : Nat) : clamp (clamp n) = clamp n := clamp_of_le (clamp_le n)

theorem clamp_sum {α : Type} (f : α → Nat) (xs : List α) :
    clamp (xs.map fun x => clamp (f x)).sum = clamp (xs.map f).sum := by
  induction xs with
  | nil => rfl
  | cons x xs ih =>
    rw [List.map_cons, List.map_cons, List.sum_cons, List.sum_cons, ← clamp_add_clamp, ih,
      clamp_clamp, clamp_add_clamp]

end Size

namespace Abi

/-! ## Out of line -/

/-- What is inside a type without inline references is out of line as the encoding says. -/
theorem isDynamicWith_eq (ofRef : StructRef → Bool) {t : Ty}
    (hrefs : ∀ r, ¬ t.Inline (.structRef r)) : t.isDynamicWith ofRef = dynamic t := by
  induction t using Ty.byKind with
  | value t hv => cases t <;> first | rfl | cases hv
  | bytes | string | dynamicArray | mapping => rfl
  | struct name fields ih =>
    rw [Ty.isDynamicWith, dynamic]
    replace ih : ∀ f ∈ fields, f.2.isDynamicWith ofRef = dynamic f.2 := fun f hf =>
      ih f hf fun r hr => hrefs r (.field hf hr)
    clear hrefs
    induction fields with
    | nil => rfl
    | cons f rest ihrest =>
      obtain ⟨name, t⟩ := f
      obtain ⟨ht, hrest⟩ := List.forall_mem_cons.1 ih
      rw [Ty.anyDynamicWith, anyDynamic, ht, ihrest hrest]
  | structRef r => exact absurd (.self _) (hrefs r)
  | staticArray element length ih =>
    rw [Ty.isDynamicWith, dynamic]
    exact ih fun r hr => hrefs r (.staticArray hr)

/-- **Data lies out of line for the types that the encoding says.** -/
theorem isDynamic_eq (types : Declared) {t : Ty} (hrefs : ∀ r, ¬ t.Inline (.structRef r)) :
    types.isDynamic t = dynamic t := isDynamicWith_eq _ hrefs

theorem anyDynamic_eq_false {fields : List (String × Ty)} (h : anyDynamic fields = false) :
    ∀ t ∈ fields.map Prod.snd, dynamic t = false := by
  induction fields with
  | nil => simp
  | cons f rest ih =>
    rw [anyDynamic, Bool.or_eq_false_iff] at h
    intro t ht
    rcases List.mem_cons.1 ht with rfl | ht
    · exact h.1
    · exact ih h.2 t ht

/-! ## Heads of any length -/

mutual

/-- The bytes of the head of a type: a word where the data is out of line, all of it otherwise. -/
def headSize : Ty → Nat
  | .staticArray element length => if dynamic element then 32 else length * headSize element
  | .struct _ fields => if anyDynamic fields then 32 else headSizeOfFields fields
  | _ => 32

/-- The bytes of the heads of the members of a struct. -/
def headSizeOfFields : List (String × Ty) → Nat
  | [] => 0
  | (_, t) :: rest => headSize t + headSizeOfFields rest

end

theorem headSizeOfFields_eq_sum (fields : List (String × Ty)) :
    headSizeOfFields fields = ((fields.map Prod.snd).map headSize).sum := by
  induction fields with
  | nil => rfl
  | cons f rest ih => rw [headSizeOfFields, ih, List.map_cons, List.map_cons, List.sum_cons]

/-- A tuple without dynamic components consists of heads. -/
theorem length_tuple {types : List Ty} {values : List Value} {components : List Component}
    (h : components? types values = some components) (hstatic : ∀ t ∈ types, dynamic t = false) :
    (tuple components).length = headLength components := by
  have htails : tails components = [] := by
    induction types generalizing values components with
    | nil =>
      cases values with
      | nil => obtain rfl := Option.some.inj h; rfl
      | cons v rest => cases h
    | cons t types ih =>
      obtain ⟨v, rest, data, others, rfl, -, hothers, rfl⟩ := components?_cons_eq_some h
      rw [hstatic t List.mem_cons_self]
      show tails others = []
      exact ih hothers fun t ht => hstatic t (List.mem_cons_of_mem _ ht)
  rw [tuple, htails, List.append_nil, length_heads]

/-- Heads of components are as long together as those of their types. -/
theorem sum_headSize {types : List Ty} {values : List Value} {components : List Component}
    (hsize : ∀ t ∈ types, ∀ v data, encode? t v = some data →
      headSize t = (Component.mk (dynamic t) data).headLength)
    (h : components? types values = some components) :
    (types.map headSize).sum = headLength components := by
  induction types generalizing values components with
  | nil =>
    cases values with
    | nil => obtain rfl := Option.some.inj h; rfl
    | cons v rest => cases h
  | cons t types ih =>
    obtain ⟨v, rest, data, others, rfl, hdata, hothers, rfl⟩ := components?_cons_eq_some h
    rw [headLength, List.map_cons, List.sum_cons, hsize t List.mem_cons_self v data hdata,
      ih (fun t ht => hsize t (List.mem_cons_of_mem _ ht)) hothers]

/-- **Heads are as long as the encoding says.** -/
theorem headSize_of_encode {t : Ty} {v : Value} {data : Bytes} (ht : t.Regular)
    (hdata : encode? t v = some data) :
    headSize t = (Component.mk (dynamic t) data).headLength := by
  induction t using Ty.byKind generalizing v data with
  | value t hv =>
    have hsize : headSize t = 32 := by cases t <;> first | rfl | cases hv
    rw [encode?_of_isValue hv] at hdata
    obtain ⟨w, -, rfl⟩ := Option.map_eq_some_iff.1 hdata
    rw [hsize, dynamic_of_isValue hv, Component.headLength, if_neg (by simp), Word.length_toBytes]
  | bytes | string | dynamicArray => rfl
  | struct name fields ih =>
    rw [headSize, dynamic]
    cases hdyn : anyDynamic fields with
    | true => rfl
    | false =>
      cases v with
      | struct values =>
        obtain ⟨components, hmembers, rfl⟩ := Option.map_eq_some_iff.1 hdata
        obtain ⟨-, hcomponents⟩ := members?_eq_some hmembers
        -- no member is dynamic, so the data is the heads
        have hsum : ((fields.map Prod.snd).map headSize).sum = headLength components :=
          sum_headSize (fun t ht' v data hv => by
            obtain ⟨f, hf, rfl⟩ := List.mem_map.1 ht'
            exact ih f hf (ht.field hf) hv) hcomponents
        rw [if_neg (by simp), headSizeOfFields_eq_sum, hsum,
          ← length_tuple hcomponents (anyDynamic_eq_false hdyn)]
        rfl
      | _ => cases hdata
  | structRef r => exact absurd ht Ty.Regular.not_structRef
  | staticArray element length ih =>
    rw [headSize, dynamic]
    cases hdyn : dynamic element with
    | true => rfl
    | false =>
      cases v with
      | array items =>
        obtain ⟨rfl, components, hcomponents, rfl⟩ := encode?_staticArray_eq_some hdata
        have hlength := length_tuple hcomponents fun t ht => by
          obtain rfl := List.eq_of_mem_replicate ht
          exact hdyn
        have hsum : ((List.replicate items.length element).map headSize).sum =
            headLength components :=
          sum_headSize (fun t ht' v data hv => by
            obtain rfl := List.eq_of_mem_replicate ht'
            exact ih ht.ofStatic hv) hcomponents
        rw [List.map_replicate, List.sum_replicate_nat] at hsum
        rw [if_neg (by simp), hsum, ← hlength]
        rfl
      | _ => cases hdata
  | mapping k v => exact absurd ht Ty.Regular.not_mapping

/-! ## Heads that sizes count -/

/-- The bytes of the heads of members, none of them counted beyond the largest size. -/
def sumOfHeads (fields : List (String × Ty)) : Nat :=
  (fields.map fun f => Size.clamp (headSize f.2)).sum

theorem clamp_sumOfHeads (fields : List (String × Ty)) :
    Size.clamp (sumOfHeads fields) = Size.clamp (headSizeOfFields fields) := by
  rw [headSizeOfFields_eq_sum, List.map_map]
  exact Size.clamp_sum _ fields

mutual

/--
Whether the heads of the members of every struct are a size together that the head of a type asks
for. Data out of line asks for none, an array of no elements asks for that of its elements.
-/
def headsFit : Ty → Bool
  | .staticArray element _ => dynamic element || headsFit element
  | .struct _ fields =>
    anyDynamic fields || (allHeadsFit fields && decide (sumOfHeads fields ≤ Size.largest))
  | _ => true

/-- Whether the heads of members fit, each on its own. -/
def allHeadsFit : List (String × Ty) → Bool
  | [] => true
  | (_, t) :: rest => headsFit t && allHeadsFit rest

end

theorem allHeadsFit_iff {fields : List (String × Ty)} :
    allHeadsFit fields = true ↔ ∀ f ∈ fields, headsFit f.2 = true := by
  induction fields with
  | nil => simp [allHeadsFit]
  | cons f rest ih => rw [allHeadsFit, Bool.and_eq_true, ih, List.forall_mem_cons]

/-- The heads of the elements fit of all arrays inside a type that have no elements. -/
def EmptyArraysFit (t : Ty) : Prop :=
  ∀ element, .staticArray element 0 ∈ t.parts → headsFit element = true

namespace EmptyArraysFit

variable {name : String} {fields : List (String × Ty)} {element : Ty} {length : Nat}

theorem field (h : EmptyArraysFit (.struct name fields)) {f : String × Ty} (hf : f ∈ fields) :
    EmptyArraysFit f.2 := fun _ hu => h _ (Ty.mem_parts_of_mem_fields hf hu)

theorem ofStatic (h : EmptyArraysFit (.staticArray element length)) : EmptyArraysFit element :=
  fun _ hu => h _ (List.mem_cons_of_mem _ hu)

theorem ofDynamic (h : EmptyArraysFit (.dynamicArray element)) : EmptyArraysFit element :=
  fun _ hu => h _ (List.mem_cons_of_mem _ hu)

end EmptyArraysFit

/-- A head that is a size fits, unless an array of no elements hides one that does not. -/
theorem headsFit_of_le {t : Ty} (hempty : EmptyArraysFit t) (h : headSize t ≤ Size.largest) :
    headsFit t = true := by
  induction t using Ty.byKind with
  | value t hv => cases t <;> first | rfl | cases hv
  | bytes | string | structRef | dynamicArray | mapping => rfl
  | struct name fields ih =>
    rw [headsFit, Bool.or_eq_true]
    cases hdyn : anyDynamic fields with
    | true => exact .inl rfl
    | false =>
      have hsum : headSizeOfFields fields ≤ Size.largest := by simpa [headSize, hdyn] using h
      rw [headSizeOfFields_eq_sum, List.map_map] at hsum
      have hone : ∀ f ∈ fields, headSize f.2 ≤ Size.largest := fun f hf =>
        (List.le_sum_of_mem (List.mem_map_of_mem hf)).trans hsum
      have hcapped : sumOfHeads fields = (fields.map fun f => headSize f.2).sum :=
        congrArg List.sum (List.map_congr_left fun f hf => Size.clamp_of_le (hone f hf))
      refine .inr ?_
      rw [Bool.and_eq_true, allHeadsFit_iff, decide_eq_true_eq, hcapped]
      exact ⟨fun f hf => ih f hf (hempty.field hf) (hone f hf), hsum⟩
  | staticArray element length ih =>
    rw [headsFit, Bool.or_eq_true]
    cases hdyn : dynamic element with
    | true => exact .inl rfl
    | false =>
      have hproduct : length * headSize element ≤ Size.largest := by simpa [headSize, hdyn] using h
      rcases Nat.eq_zero_or_pos length with rfl | hpos
      · exact .inr (hempty element (Ty.mem_parts_self _))
      · exact .inr (ih hempty.ofStatic ((Nat.le_mul_of_pos_left _ hpos).trans hproduct))

variable {types : Declared} {ofRef : StructRef → Option Nat}

/-- Heads of members are added up if each fits and so does their sum. -/
theorem headSizeOfFields?_eq {fields : List (String × Ty)}
    (h : ∀ f ∈ fields, types.headSizeWith? ofRef f.2 =
      if headsFit f.2 then some (Size.clamp (headSize f.2)) else none) :
    types.headSizeOfFields? ofRef fields =
      if allHeadsFit fields && decide (sumOfHeads fields ≤ Size.largest) then
        some (sumOfHeads fields)
      else none := by
  induction fields with
  | nil => rfl
  | cons f rest ih =>
    obtain ⟨hfirst, hrest⟩ := List.forall_mem_cons.1 h
    have hsum : sumOfHeads (f :: rest) = Size.clamp (headSize f.2) + sumOfHeads rest := rfl
    rw [Declared.headSizeOfFields?, hfirst, ih hrest, allHeadsFit, hsum]
    cases headsFit f.2 with
    | false => rfl
    | true =>
      cases allHeadsFit rest with
      | false => rfl
      | true =>
        -- a sum is no size if the rest of it is none
        by_cases hle : sumOfHeads rest ≤ Size.largest
        · simp [hle, Size.add?]
        · have hlarge : ¬ Size.clamp (headSize f.2) + sumOfHeads rest ≤ Size.largest := by omega
          simp [hle, hlarge]

/-- **A head is as long as it should be, or the largest size, just if the sums are sizes.** -/
theorem headSizeWith?_eq {t : Ty} (hrefs : ∀ r, ¬ t.Inline (.structRef r)) :
    types.headSizeWith? ofRef t =
      if headsFit t then some (Size.clamp (headSize t)) else none := by
  induction t using Ty.byKind with
  | value t hv => cases t <;> first | rfl | cases hv
  | bytes | string | dynamicArray | mapping => rfl
  | structRef r => exact absurd (.self _) (hrefs r)
  | struct name fields ih =>
    rw [Declared.headSizeWith?, isDynamic_eq types hrefs, dynamic, headsFit, headSize]
    cases hdyn : anyDynamic fields with
    | true => rfl
    | false =>
      rw [if_neg (by simp), headSizeOfFields?_eq fun f hf => ih f hf fun r hr =>
        hrefs r (.field hf hr), Bool.false_or]
      split
      · rename_i hfit
        rw [Bool.and_eq_true, decide_eq_true_eq] at hfit
        rw [if_neg (by simp), ← clamp_sumOfHeads, Size.clamp_of_le hfit.2]
      · rfl
  | staticArray element length ih =>
    rw [Declared.headSizeWith?, isDynamic_eq types hrefs, dynamic, headsFit, headSize]
    cases hdyn : dynamic element with
    | true => rfl
    | false =>
      rw [if_neg (by simp), ih fun r hr => hrefs r (.staticArray hr), Bool.false_or]
      split
      · rw [if_neg (by simp), Option.map_some, Size.mul, Size.clamp_mul_clamp]
      · rfl

/-- **What has an encoding has a head**, as long as it says, if empty arrays fit. -/
theorem headSize?_of_encode (types : Declared) {t : Ty} {v : Value} {data : Bytes}
    (ht : t.Regular) (hempty : EmptyArraysFit t) (hdata : encode? t v = some data)
    (hle : (Component.mk (dynamic t) data).headLength ≤ Size.largest) :
    types.headSize? t = some (Component.mk (dynamic t) data).headLength := by
  have hsize := headSize_of_encode ht hdata
  rw [← hsize] at hle ⊢
  have hhead : types.headSize? t = _ := headSizeWith?_eq ht.not_inline
  rw [hhead, if_pos (headsFit_of_le hempty hle), Size.clamp_of_le hle]

end Abi

end Solscope
