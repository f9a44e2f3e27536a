import Solscope.Proofs.Bytes
import Solscope.Proofs.Read.Limits
import Solscope.Proofs.Storage.Mapping
import Solscope.Proofs.Ty.Unfolding
import Solscope.Read.Memory

/-!
# What is not there

Storage and memory that nothing was written to are zero. What is read of them is the value whose
encoding is zero: two recursions over a type agree, that of reading and that of `Declared.zero`.

A struct inside itself could be read without end. Where it is the element of a dynamic array or the
value of a mapping, this does not happen: there are no elements and no keys. Otherwise references
are followed until they stand for nothing, and there is no value.

* `Ty.WellNested.not_inline`: no reference does, if no struct contains itself like that.
* `Declared.readStorage_absent`: **absent storage is read as the zero value.**
* `Ty.textEnd`: where the bytes of an empty byte string would start in memory.
* `Declared.readMemory_absent`: **absent memory is read as the zero value** if it reaches that far.
-/

namespace Solscope

/-! ## Structs inside themselves -/

namespace Ty

/-- The structs around a type are inside the whole, and the type is inside each of them. -/
theorem Inline.exists_inside {t u : Ty} (h : t.Inline u) :
    ∃ path, t.Inside path u ∧ ∀ name ∈ path,
      ∃ fields, .struct name fields ∈ t.parts ∧ (struct name fields).Inline u := by
  induction h with
  | self t => exact ⟨[], .self t, by simp⟩
  | @field name fields f u hf hu ih =>
    obtain ⟨path, hinside, haround⟩ := ih
    refine ⟨name :: path, .field hf hinside, List.forall_mem_cons.2 ⟨?_, fun name' hname => ?_⟩⟩
    · exact ⟨fields, mem_parts_self _, .field hf hu⟩
    · obtain ⟨fields', hpart, hin⟩ := haround name' hname
      exact ⟨fields', mem_parts_of_mem_fields hf hpart, hin⟩
  | staticArray _ ih =>
    obtain ⟨path, hinside, haround⟩ := ih
    refine ⟨path, .staticArray hinside, fun name hname => ?_⟩
    obtain ⟨fields, hpart, hin⟩ := haround name hname
    exact ⟨fields, List.mem_cons_of_mem _ hpart, hin⟩

/-- No struct in a type contains itself, other than in a dynamic array or a mapping. -/
def IsFinite (t : Ty) : Prop :=
  ∀ name fields, .struct name fields ∈ t.parts →
    ∀ r, (struct name fields).Inline (.structRef r) → r.name ≠ name

/-- References are to structs around them, so none is inline where no struct contains itself. -/
theorem WellNested.not_inline {t : Ty} (ht : t.WellNested) (hfinite : t.IsFinite) (r : StructRef) :
    ¬ t.Inline (.structRef r) := by
  intro hr
  obtain ⟨path, hinside, haround⟩ := hr.exists_inside
  have hname : r.name ∈ path := ht.enclosed path r hinside
  obtain ⟨fields, hpart, hin⟩ := haround r.name hname
  exact hfinite _ fields hpart r hin rfl

end Ty

/-! ## Storage -/

/-- Nothing of a word that is zero is set. -/
@[simp]
theorem Word.field_zero (offset length : Nat) : (0 : Word).field offset length = 0 := by
  simp [field]

namespace Declared

variable {types : Declared} {view : StorageView} {sure : Prop} {zeroOfRef : StructRef → Value}
  {ofRef : StructRef → SlotCursor → Except ReadError (Value × SlotCursor)}

/-- What the bits of a value stand for has no references. -/
theorem ofBits_of_isValue {t : Ty} (ht : t.isValue = true) (bits : Nat) :
    types.ofBits t bits = t.ofBitsWith zeroOfRef bits := by
  cases t <;> first | rfl | cases ht

end Declared

/-! ## Memory -/

namespace Ty

mutual

/-- Whether a byte string is read for a value of a type, however short dynamic arrays are. -/
def hasText : Ty → Bool
  | bytes | string => true
  | struct _ fields => anyHasText fields
  | staticArray element length => length != 0 && hasText element
  | _ => false

/-- Whether a byte string is read for any member of a struct. -/
def anyHasText : List (String × Ty) → Bool
  | [] => false
  | (_, t) :: rest => hasText t || anyHasText rest

end

/--
Where the bytes of an empty byte string start that is read for a zero value at `pointer`: after its
length, which other types have behind a pointer of zero.
-/
def textEnd (t : Ty) (pointer : Nat) : Nat :=
  match t with
  | bytes | string => Size.add pointer 32
  | t => if t.hasText then 32 else 0

theorem hasText_of_isValue {t : Ty} (ht : t.isValue = true) : t.hasText = false := by
  cases t <;> first | rfl | cases ht

theorem textEnd_of_isValue {t : Ty} (ht : t.isValue = true) (pointer : Nat) :
    t.textEnd pointer = 0 := by
  cases t <;> first | rfl | cases ht

theorem textEnd_zero (t : Ty) : t.textEnd 0 = if t.hasText then 32 else 0 := by
  cases t <;> rfl

end Ty

namespace Memory

/-- A result, if an empty byte string at `start` is not beyond the end of `size` bytes. -/
def afterText {α : Type} (size start : Nat) (a : α) : Except ReadError α :=
  if start ≤ size then .ok a else .error (.outOfBounds start 0)

theorem afterText_zero {α : Type} (size : Nat) (a : α) : afterText size 0 a = .ok a :=
  if_pos (Nat.zero_le _)

theorem afterText_map {α β : Type} (size start : Nat) (a : α) (f : α → β) :
    (afterText size start a).map f = afterText size start (f a) := by
  unfold afterText
  split <;> rfl

/-- Of two parts of a value, each may have a byte string behind a pointer of zero. -/
theorem afterText_bind {α β γ : Type} (size : Nat) (first rest : Bool) (a : α) (b : β)
    (f : α → β → γ) :
    (do
      let a ← afterText size (if first then 32 else 0) a
      let b ← afterText size (if rest then 32 else 0) b
      return f a b) = afterText size (if first || rest then 32 else 0) (f a b) := by
  by_cases hsize : 32 ≤ size <;> cases first <;> cases rest <;>
    simp [afterText, hsize, bind, Except.bind, pure, Except.pure]

theorem slice_replicate_zero (size start : Nat) :
    slice (List.replicate size 0) start 0 = afterText size start [] := by
  simp [slice, afterText, Bytes.slice]

theorem word_replicate_zero (n offset : Nat) : word (List.replicate n 0) offset = 0 := by
  have hdata : Bytes.paddedSlice (List.replicate n 0) offset 32 = List.replicate 32 0 := by
    refine List.ext_getElem? fun i => ?_
    rw [Bytes.getElem?_paddedSlice, List.getElem?_replicate, List.getElem?_replicate]
    split
    · split <;> rfl
    · rfl
  rw [word, hdata, Word.ofBytes, Bytes.toNat_replicate_zero]
  rfl

theorem size_replicate_zero (n offset : Nat) : Memory.size (List.replicate n 0) offset = 0 := by
  rw [size, word_replicate_zero]
  rfl

end Memory

namespace Declared

variable {types : Declared} {limits : Limits} {size : Nat} {zeroOfRef : StructRef → Value}
  {ofRef : StructRef → Nat → Except ReadError Value}

/-- A word of zero holds the zero value. -/
theorem ofWord_zero {t : Ty} (ht : t.isValue = true) :
    types.ofWord t 0 = t.ofBitsWith zeroOfRef 0 := by
  have hbits : t.significant 0 = 0 := by
    unfold Ty.significant
    split
    · exact Nat.zero_shiftRight _
    · exact Word.field_zero _ _
  rw [ofWord, hbits]
  exact ofBits_of_isValue ht 0

/-- A member is a value of zero, or a pointer of zero. -/
theorem readMember_absent {t : Ty} {read : Nat → Except ReadError Value}
    (h : ∀ pointer, read pointer =
      Memory.afterText size (t.textEnd pointer) (t.ofBitsWith zeroOfRef 0)) (offset : Nat) :
    types.readMember (List.replicate size 0) t read offset =
      Memory.afterText size (if t.hasText then 32 else 0) (t.ofBitsWith zeroOfRef 0) := by
  unfold readMember
  split
  · rename_i hv
    rw [Memory.word_replicate_zero, ofWord_zero hv, Ty.hasText_of_isValue hv]
    exact (Memory.afterText_zero size _).symm
  · rw [Memory.size_replicate_zero, h, Ty.textEnd_zero]

theorem readMemoryFields_absent {fields : List (String × Ty)}
    (hmappings : ∀ f ∈ fields, f.2.isMapping = false)
    (h : ∀ f ∈ fields, ∀ pointer,
      readMemoryWith types (List.replicate size 0) limits ofRef pointer f.2 =
        Memory.afterText size (f.2.textEnd pointer) (f.2.ofBitsWith zeroOfRef 0)) (offset : Nat) :
    readMemoryFields types (List.replicate size 0) limits ofRef offset fields =
      Memory.afterText size (if Ty.anyHasText fields then 32 else 0)
        (Ty.zeroOfFields zeroOfRef fields) := by
  induction fields generalizing offset with
  | nil => exact (Memory.afterText_zero size _).symm
  | cons f rest ih =>
    obtain ⟨name, t⟩ := f
    obtain ⟨hmapping, hmappings⟩ := List.forall_mem_cons.1 hmappings
    obtain ⟨hfirst, hrest⟩ := List.forall_mem_cons.1 h
    rw [readMemoryFields, if_neg (by simpa using hmapping), readMember_absent hfirst,
      ih hmappings hrest, Memory.afterText_bind]
    rfl

theorem readWords_absent {hasText : Bool} {v : Value} {read : Nat → Except ReadError Value}
    (h : ∀ offset, read offset = Memory.afterText size (if hasText then 32 else 0) v)
    (start index count : Nat) : readWords read start index count =
      Memory.afterText size (if count != 0 && hasText then 32 else 0)
        (List.replicate count v) := by
  induction count generalizing index with
  | zero => exact (Memory.afterText_zero size _).symm
  | succ count ih =>
    rw [readWords, h, ih, Memory.afterText_bind]
    cases hasText <;> simp [List.replicate_succ]

/-- In memory of zeros, a type has its zero value if empty byte strings are not beyond the end. -/
theorem readMemoryWith_absent {t : Ty} (hmappings : ∀ s, t.Inline s → s.isMapping = false)
    (hrefs : ∀ r, ¬ t.Inline (.structRef r))
    (hlengths : ∀ element length, t.Inline (.staticArray element length) →
      length ≤ limits.array) (pointer : Nat) :
    readMemoryWith types (List.replicate size 0) limits ofRef pointer t =
      Memory.afterText size (t.textEnd pointer) (t.ofBitsWith zeroOfRef 0) := by
  induction t using Ty.byKind generalizing pointer with
  | value t hv =>
    rw [readMemoryWith_of_isValue hv, Memory.word_replicate_zero, ofWord_zero hv,
      Ty.textEnd_of_isValue hv]
    exact (Memory.afterText_zero size _).symm
  | bytes =>
    rw [readMemoryWith, Memory.size_replicate_zero, Nat.zero_min, Memory.slice_replicate_zero]
    exact Memory.afterText_map _ _ _ _
  | string =>
    rw [readMemoryWith, Memory.size_replicate_zero, Nat.zero_min, Memory.slice_replicate_zero]
    exact Memory.afterText_map _ _ _ _
  | struct name fields ih =>
    rw [readMemoryWith, readMemoryFields_absent (fun f hf => hmappings f.2 (.field hf (.self _)))
      fun f hf => ih f hf (fun s hs => hmappings s (.field hf hs))
        (fun r hr => hrefs r (.field hf hr))
        fun element length h => hlengths element length (.field hf h)]
    exact Memory.afterText_map _ _ _ _
  | structRef r => exact absurd (.self _) (hrefs r)
  | staticArray element length ih =>
    have helement := ih (fun s hs => hmappings s (.staticArray hs))
      (fun r hr => hrefs r (.staticArray hr))
      fun inner length h => hlengths inner length (.staticArray h)
    rw [readMemoryWith, readWords_absent (readMember_absent helement),
      Nat.min_eq_left (hlengths element length (.self _))]
    exact Memory.afterText_map _ _ _ _
  | dynamicArray element ih =>
    -- there are no elements, so that references under them do not matter
    rw [readMemoryWith, Memory.size_replicate_zero, Nat.zero_min]
    exact (Memory.afterText_zero size _).symm
  | mapping k v => exact absurd (hmappings _ (.self _)) (by simp [Ty.isMapping])

/--
**Absent memory is read as the zero value** if it reaches as far as the bytes of the empty byte
strings that are read. Let memory consist of `size` zeros, and let a type have no mapping inside, no
struct that contains itself other than in a dynamic array, and no static array longer than the
limit. Reading the type at any pointer gives its zero value, unless there is a byte string to read
and its bytes would start beyond the end of memory: reading fails then, although there are no bytes.
-/
theorem readMemory_absent {types : Declared} {descriptor : String} {contract : Option String}
    {t : Ty} (ht : types.resolve? descriptor contract = some t)
    (hmappings : ∀ s ∈ t.parts, s.isMapping = false) (hfinite : t.IsFinite) {limits : Limits}
    (hlengths : ∀ element length, .staticArray element length ∈ t.parts → length ≤ limits.array)
    (size pointer : Nat) :
    types.readMemory (List.replicate size 0) limits t pointer =
      if t.textEnd pointer ≤ size then .ok (types.zero t)
      else .error (.outOfBounds (t.textEnd pointer) 0) := by
  have hnested : t.WellNested := nestedIn_of_resolveNested ht List.nodup_nil
  obtain ⟨zeroOfRef, hzero⟩ := types.exists_unfoldWithin_eq (fun _ => Value.struct [])
    (fun zeroOfRef t => t.ofBitsWith zeroOfRef 0) unfoldLimit
  rw [zero, ofBits, Declared.unfold, hzero]
  exact readMemoryWith_absent (fun s hs => hmappings s hs.mem_parts) (hnested.not_inline hfinite)
    (fun element length h => hlengths element length h.mem_parts) pointer

/-- One word of memory holds the zero value of a struct with texts, one byte less does not. -/
theorem readMemory_absent_text :
    let types := ({} : Declared).addStruct ⟨"T.Entry", some "T",
      [("id", "uint64"), ("names", "string[2]"), ("older", "struct T.Entry memory[] memory")]⟩
    let t : Ty := .struct "T.Entry" [("id", .uint 8), ("names", .staticArray .string 2),
      ("older", .dynamicArray (.structRef ⟨"T.Entry", some "T", 1⟩))]
    types.resolve? "struct T.Entry" none = some t ∧ t.IsFinite ∧
      types.readMemory (List.replicate 32 0) {} t 7 = .ok (.struct [("id", .uint 0),
        ("names", .array [.string "", .string ""]), ("older", .array [])]) ∧
      types.readMemory (List.replicate 31 0) {} t 7 = .error (.outOfBounds 32 0) := by
  intro types t
  have ht : types.resolve? "struct T.Entry" none = some t := rfl
  have hfinite : t.IsFinite := by
    intro name fields hpart r hr
    simp only [t, Ty.parts, Ty.partsOfFields, List.mem_cons, List.mem_append, List.not_mem_nil,
      or_false, reduceCtorEq] at hpart
    obtain ⟨rfl, rfl⟩ := Ty.struct.inj hpart
    cases hr with
    | field hf hin =>
      simp only [List.mem_cons, List.not_mem_nil, or_false] at hf
      rcases hf with rfl | rfl | rfl <;> cases hin
      rename_i hin
      cases hin
  have hmappings : ∀ s ∈ t.parts, s.isMapping = false := by
    simp [t, Ty.parts, Ty.partsOfFields, Ty.isMapping]
  have hlengths : ∀ element length, .staticArray element length ∈ t.parts →
      length ≤ ({} : Limits).array := by
    simp [t, Ty.parts, Ty.partsOfFields]
  have hread := readMemory_absent ht hmappings hfinite hlengths
  exact ⟨ht, hfinite, hread 32 7, hread 31 7⟩

end Declared

end Solscope
