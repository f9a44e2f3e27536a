import Solscope.Proofs.Read.Limits
import Solscope.Proofs.Storage.Mapping

/-!
# Smaller limits only cut what is read

The limits say how much is taken of data whose length somebody else chose, and nothing else depends
on them: no place where reading goes on, no other member of a struct and no failure. So whoever
reads again with smaller limits has the first items of every array and the first bytes of every byte
string that larger limits had given, and fails nowhere where these had not.

Texts are not cut like that, since the bytes are cut before they are read as characters. Mappings
are not either: which of their entries come first is up to the record of hash inputs.

* `Value.cut`: a value with every array and byte string inside it cut to limits.
* `StorageView.byteString_cut`, `Memory.slice_cut`: byte strings.
* `Declared.readRepeated_cut`, `Declared.readWords_cut`: items in a row.
* `Declared.readStorageWith_cut`, `readMemoryWith_cut`, `readInputWith_cut`: one level of each.
* `Declared.reads_cut`: **with smaller limits, the same value is read and cut.**
-/

namespace Solscope

/-- Limits are compared one by one. -/
instance : LE Limits :=
  ⟨fun limits more => limits.array ≤ more.array ∧ limits.mapping ≤ more.mapping ∧
    limits.bytes ≤ more.bytes⟩

/-- A machine state that is read with other limits, wherever the data lives. -/
def StackView.withLimits (view : StackView) (limits : Limits) : StackView :=
  { view with storage := view.storage.map fun storage => { storage with limits }, limits }

namespace Value

mutual

/-- A value with every array and every byte string inside it cut to the limits. -/
def cut (limits : Limits) : Value → Value
  | bytes data => bytes (data.take limits.bytes)
  | struct fields => struct (cutPairs limits fields)
  | array items => array ((cutItems limits items).take limits.array)
  | mapping entries => mapping (cutPairs limits entries)
  | v => v

/-- The items of an array, each of them cut. -/
def cutItems (limits : Limits) : List Value → List Value
  | [] => []
  | v :: rest => cut limits v :: cutItems limits rest

/-- Members or entries, each of them cut. -/
def cutPairs (limits : Limits) : List (String × Value) → List (String × Value)
  | [] => []
  | (name, v) :: rest => (name, cut limits v) :: cutPairs limits rest

end

variable {limits more : Limits}

theorem length_cutItems (limits : Limits) (items : List Value) :
    (cutItems limits items).length = items.length := by
  induction items with
  | nil => rfl
  | cons v rest ih => exact congrArg (· + 1) ih

/-- Items that larger limits have cut already are cut further. -/
theorem take_cutItems (hle : limits ≤ more) {items : List Value} {length : Nat}
    (h : items.length = min length more.array) :
    (cutItems limits items).take (min length limits.array) =
      (cutItems limits items).take limits.array := by
  have harray : limits.array ≤ more.array := hle.1
  rw [List.take_eq_take_iff, length_cutItems, h]
  omega

/-- A value of a value type has nothing to cut. -/
theorem cut_ofBits (types : Declared) {t : Ty} (ht : t.isValue = true) (bits : Nat) :
    (types.ofBits t bits).cut limits = types.ofBits t bits := by
  cases t with
  | bytes | string | struct | structRef | staticArray | dynamicArray | mapping => cases ht
  | _ => rfl

theorem cut_ofWord (types : Declared) {t : Ty} (ht : t.isValue = true) (w : Word) :
    (types.ofWord t w).cut limits = types.ofWord t w :=
  cut_ofBits types ht _

/-- A value that is read with larger limits, and what smaller limits make of it. -/
def CutsTo (limits : Limits) (v v' : Value) : Prop := v' = v.cut limits

/-- The same for values with the place where reading goes on, which is one and the same. -/
def CutsToAt {σ : Type} (limits : Limits) (a b : Value × σ) : Prop := b = (a.1.cut limits, a.2)

end Value

/-! ## Byte strings -/

/-- Of a slice of data a shorter one is the beginning. -/
theorem Memory.slice_cut {limits more : Limits} (hle : limits ≤ more) (data : Bytes)
    (offset length : Nat) :
    RelatesOk (fun a b : Bytes => b = a.take limits.bytes)
      (slice data offset (min length more.bytes))
      (slice data offset (min length limits.bytes)) := by
  have hbytes : limits.bytes ≤ more.bytes := hle.2.2
  intro part hpart
  unfold slice at hpart ⊢
  split at hpart
  · obtain rfl := Except.ok.inj hpart
    have hlength : min length limits.bytes = min limits.bytes (min length more.bytes) := by omega
    refine ⟨data.slice offset (min length limits.bytes), if_pos (by omega), ?_⟩
    change data.slice offset (min length limits.bytes) = _
    rw [hlength, Bytes.slice, Bytes.slice, List.take_take]
  · cases hpart

namespace StorageView

variable {view : StorageView} {limits more : Limits}

/-- Words in a row are read without limits. -/
theorem words_withLimits (view : StorageView) (limits : Limits) (slot : Word) (count : Nat) :
    words { view with limits } slot count = view.words slot count := by
  induction count generalizing slot with
  | zero => rfl
  | succ count ih =>
    rw [words, words, ih]
    rfl

/-- Fewer slots in a row are read as the beginning of more. -/
theorem words_take {slot : Word} {m n : Nat} (hmn : m ≤ n) :
    RelatesOk (fun a b : Bytes => b = a.take (32 * m)) (view.words slot n) (view.words slot m) := by
  induction m generalizing slot n with
  | zero => exact fun _ _ => ⟨[], rfl, rfl⟩
  | succ m ih =>
    obtain ⟨n, rfl⟩ : ∃ k, n = k + 1 := ⟨n - 1, by omega⟩
    refine .same fun w => .bind (ih (Nat.le_of_succ_le_succ hmn)) fun a b hab => .pure ?_
    have hlength := w.length_toBytes
    have hcount : 32 * (m + 1) - w.toBytes.length = 32 * m := by omega
    have hfirst : w.toBytes.take (32 * (m + 1)) = w.toBytes := List.take_of_length_le (by omega)
    rw [hab, List.take_append, hcount, hfirst]

/-- Where memory has room for what larger limits allow, it has for what smaller ones do. -/
theorem byteCount_cut (hle : limits ≤ more) (length : Nat) :
    RelatesOk (fun n m => n = min length more.bytes ∧ m = min length limits.bytes)
      (more.byteCount length) (limits.byteCount length) := by
  have hbytes : limits.bytes ≤ more.bytes := hle.2.2
  intro n hn
  obtain ⟨rfl, hroom⟩ := Limits.byteCount_eq_ok_iff.1 hn
  exact ⟨_, Limits.byteCount_eq_ok_iff.2 ⟨rfl, by omega⟩, rfl, rfl⟩

theorem itemCount_cut (hle : limits ≤ more) (length : Nat) :
    RelatesOk (fun n m => n = min length more.array ∧ m = min length limits.array)
      (more.itemCount length) (limits.itemCount length) := by
  have harray : limits.array ≤ more.array := hle.1
  intro n hn
  obtain ⟨rfl, hroom⟩ := Limits.itemCount_eq_ok_iff.1 hn
  exact ⟨_, Limits.itemCount_eq_ok_iff.2 ⟨rfl, by omega⟩, rfl, rfl⟩

/-- A byte string in storage is cut to smaller limits, in a slot of its own or not. -/
theorem byteString_cut (hle : limits ≤ more) (slot : Word) :
    RelatesOk (fun a b : Bytes => b = a.take limits.bytes)
      (byteString { view with limits := more } slot) (byteString { view with limits } slot) := by
  have hbytes : limits.bytes ≤ more.bytes := hle.2.2
  refine .same fun header => ?_
  dsimp only
  split
  · refine .pure ?_
    rw [List.take_take]
    congr 1
    omega
  · -- the bytes are cut after their slots have been read, the last of them not in full
    generalize Size.clamp (header.toNat / 2) = length
    refine (byteCount_cut hle length).bind ?_
    rintro _ _ ⟨rfl, rfl⟩
    have hcount : Size.ceilDiv (min length limits.bytes) 32 ≤
        Size.ceilDiv (min length more.bytes) 32 := Nat.div_le_div_right (by omega)
    have hcover : min length limits.bytes ≤ 32 * Size.ceilDiv (min length limits.bytes) 32 := by
      unfold Size.ceilDiv
      omega
    rw [words_withLimits view more, words_withLimits view limits]
    refine (words_take hcount).bind fun a b hab => .pure ?_
    rw [hab, List.take_take, List.take_take]
    congr 1
    omega

end StorageView

namespace Declared

open Value

variable {types : Declared} {limits more : Limits}

/-! ## Items in a row -/

/-- Of items in a row, fewer are the first ones, wherever the reading of the others had ended. -/
theorem readRepeated_take {σ : Type} {read read' : σ → Except ReadError (Value × σ)}
    (h : ∀ s, RelatesOk (CutsToAt limits) (read s) (read' s)) {m n : Nat} (hmn : m ≤ n) (s : σ) :
    RelatesOk (fun a b : List Value × σ => a.1.length = n ∧ b.1 = (cutItems limits a.1).take m)
      (readRepeated read n s) (readRepeated read' m s) := by
  induction n generalizing m s with
  | zero =>
    obtain rfl : m = 0 := Nat.le_zero.1 hmn
    exact .pure ⟨rfl, rfl⟩
  | succ n ih =>
    cases m with
    | zero =>
      -- nothing is read where the limit is reached, while the other reading goes on
      intro a ha
      have hlength := (holds_readRepeated (P := fun _ => True) (fun _ _ _ => trivial) _ s a ha).1
      exact ⟨([], s), rfl, hlength, List.take_zero.symm⟩
    | succ m =>
      refine (h s).bind ?_
      rintro ⟨v, s⟩ _ rfl
      refine (ih (Nat.le_of_succ_le_succ hmn) s).bind ?_
      rintro ⟨rest, s'⟩ ⟨rest', s''⟩ ⟨hlength, rfl⟩
      exact .pure ⟨congrArg (· + 1) hlength, rfl⟩

/-- **An array is cut** where its items are read one after the other. -/
theorem readRepeated_cut {σ : Type} {read read' : σ → Except ReadError (Value × σ)}
    (hle : limits ≤ more) (h : ∀ s, RelatesOk (CutsToAt limits) (read s) (read' s)) (length : Nat)
    (s : σ) : RelatesOk
      (fun a b : List Value × σ => b.1 = (cutItems limits a.1).take limits.array)
      (readRepeated read (min length more.array) s)
      (readRepeated read' (min length limits.array) s) := by
  have harray : limits.array ≤ more.array := hle.1
  have hmn : min length limits.array ≤ min length more.array := by omega
  intro a ha
  obtain ⟨b, hb, hlength, hitems⟩ := readRepeated_take h hmn s a ha
  exact ⟨b, hb, hitems.trans (take_cutItems hle hlength)⟩

/-- **An array in storage is cut.** -/
theorem items_cut {view : StorageView} {σ : Type} {read read' : σ → Except ReadError (Value × σ)}
    (hle : limits ≤ more) (h : ∀ s, RelatesOk (CutsToAt limits) (read s) (read' s)) (length : Nat)
    (s : σ) : RelatesOk (fun a b => b = (cutItems limits a).take limits.array)
      (StorageView.items { view with limits := more } read length s)
      (StorageView.items { view with limits } read' length s) := by
  refine (StorageView.itemCount_cut hle length).bind ?_
  rintro _ _ ⟨rfl, rfl⟩
  refine (readRepeated_cut hle h length s).bind ?_
  rintro ⟨items, s⟩ ⟨_, s'⟩ rfl
  exact .pure rfl

/-- Items that are a word apart are items in a row, at one index after the other. -/
theorem readWords_eq {α : Type} (read : Nat → Except ReadError α) (start index count : Nat) :
    readWords read start index count =
      (readRepeated (fun i => (read (Size.add start (32 * i))).map fun a => (a, i + 1)) count
        index).map Prod.fst := by
  induction count generalizing index with
  | zero => rfl
  | succ count ih =>
    rw [readWords, readRepeated, ih]
    cases read (Size.add start (32 * index)) with
    | error e => rfl
    | ok a =>
      have hrest (rest : Except ReadError (List α × Nat)) :
          (do return a :: (← rest.map Prod.fst)) =
            (do let p ← rest; return (a :: p.1, p.2)).map Prod.fst := by
        cases rest <;> rfl
      exact hrest _

/-- **An array is cut** where its items are a word apart. -/
theorem readWords_cut {read read' : Nat → Except ReadError Value} (hle : limits ≤ more)
    (h : ∀ offset, RelatesOk (CutsTo limits) (read offset) (read' offset))
    (start length : Nat) :
    RelatesOk (fun a b => b = (cutItems limits a).take limits.array)
      (readWords read start 0 (min length more.array))
      (readWords read' start 0 (min length limits.array)) := by
  have hitem : ∀ i, RelatesOk (CutsToAt limits)
      ((read (Size.add start (32 * i))).map fun v => (v, i + 1))
      ((read' (Size.add start (32 * i))).map fun v => (v, i + 1)) := by
    refine fun i => (h _).map ?_
    rintro v _ rfl
    rfl
  rw [readWords_eq, readWords_eq]
  exact (readRepeated_cut hle hitem length 0).map fun _ _ hcut => hcut

/-- What is neither a text nor a mapping: the types whose values can be cut. -/
def IsCuttable (t : Ty) : Prop := t.isMapping = false ∧ t ≠ .string

/-! ## Storage -/

section Storage

variable {view : StorageView}
  {ofRef ofRef' : StructRef → SlotCursor → Except ReadError (Value × SlotCursor)}

theorem readStorageFields_cut {fields : List (String × Ty)}
    (h : ∀ f ∈ fields, ∀ c, RelatesOk (CutsToAt limits)
      (readStorageWith types { view with limits := more } ofRef c f.2)
      (readStorageWith types { view with limits } ofRef' c f.2)) (c : SlotCursor) :
    RelatesOk
      (fun a b : List (String × Value) × SlotCursor => b = (cutPairs limits a.1, a.2))
      (readStorageFields types { view with limits := more } ofRef c fields)
      (readStorageFields types { view with limits } ofRef' c fields) := by
  induction fields generalizing c with
  | nil => exact .pure rfl
  | cons f rest ih =>
    obtain ⟨hfirst, hrest⟩ := List.forall_mem_cons.1 h
    refine (hfirst c).bind ?_
    rintro ⟨v, c⟩ _ rfl
    refine (ih hrest c).bind ?_
    rintro ⟨values, c⟩ _ rfl
    exact .pure rfl

/-- With smaller limits, the same is read from storage and cut, and the cursor ends where it did. -/
theorem readStorageWith_cut (hle : limits ≤ more) {t : Ty} (hcut : ∀ s ∈ t.parts, IsCuttable s)
    (hrefs : ∀ r, .structRef r ∈ t.parts → ∀ c,
      RelatesOk (CutsToAt limits) (ofRef r c) (ofRef' r c)) (c : SlotCursor) :
    RelatesOk (CutsToAt limits) (readStorageWith types { view with limits := more } ofRef c t)
      (readStorageWith types { view with limits } ofRef' c t) := by
  induction t using Ty.byKind generalizing c with
  | value t hv =>
    rw [readStorageWith_scalar hv, readStorageWith_scalar hv]
    refine .same fun w => .pure ?_
    rw [CutsToAt, cut_ofBits types hv]
  | bytes =>
    refine (StorageView.byteString_cut hle _).bind ?_
    rintro data _ rfl
    exact .pure rfl
  | string => exact absurd rfl (hcut _ (Ty.mem_parts_self _)).2
  | struct name fields ih =>
    have hfields : ∀ f ∈ fields, ∀ c, RelatesOk (CutsToAt limits)
        (readStorageWith types { view with limits := more } ofRef c f.2)
        (readStorageWith types { view with limits } ofRef' c f.2) := by
      intro f hf
      exact ih f hf (fun s hs => hcut s (Ty.mem_parts_of_mem_fields hf hs))
        fun r hr => hrefs r (Ty.mem_parts_of_mem_fields hf hr)
    refine (readStorageFields_cut hfields _).bind ?_
    rintro ⟨values, c⟩ _ rfl
    exact .pure rfl
  | structRef r => exact hrefs r (Ty.mem_parts_self _) c
  | staticArray element length ih =>
    have helement := ih (fun s hs => hcut s (List.mem_cons_of_mem _ hs))
      fun r hr => hrefs r (List.mem_cons_of_mem _ hr)
    -- where the array ends is known from its type, not from the items that are read
    refine (items_cut hle helement length _).bind ?_
    rintro items _ rfl
    exact .pure rfl
  | dynamicArray element ih =>
    have helement := ih (fun s hs => hcut s (List.mem_cons_of_mem _ hs))
      fun r hr => hrefs r (List.mem_cons_of_mem _ hr)
    refine .same fun header => (items_cut hle helement _ _).bind ?_
    rintro items _ rfl
    exact .pure rfl
  | mapping k v => exact absurd (hcut _ (Ty.mem_parts_self _)).1 (by simp [Ty.isMapping])

theorem readStorage_cut (hle : limits ≤ more) {t : Ty} (ht : ∀ s, types.Reaches t s → IsCuttable s)
    (c : SlotCursor) : RelatesOk (CutsToAt limits)
      (types.readStorage { view with limits := more } t c)
      (types.readStorage { view with limits } t c) := by
  unfold readStorage Declared.unfold
  refine unfoldWithin_relates
    (R := fun read read' : SlotCursor → Except ReadError (Value × SlotCursor) =>
      ∀ c, RelatesOk (CutsToAt limits) (read c) (read' c))
    (fun r c => .error _ _) ?_ unfoldLimit ht c
  intro ofRef ofRef' t hcut hrefs
  exact readStorageWith_cut hle (fun s hs => hcut s (.part hs)) hrefs

end Storage

/-! ## Memory -/

section Memory

variable {memory : Bytes} {ofRef ofRef' : StructRef → Nat → Except ReadError Value}

theorem readMember_cut {t : Ty} {read read' : Nat → Except ReadError Value}
    (h : ∀ p, RelatesOk (CutsTo limits) (read p) (read' p)) (offset : Nat) :
    RelatesOk (CutsTo limits) (types.readMember memory t read offset)
      (types.readMember memory t read' offset) := by
  unfold readMember
  split
  · rename_i hv
    exact .pure (cut_ofWord types hv _).symm
  · exact h _

theorem readMemoryFields_cut {fields : List (String × Ty)}
    (h : ∀ f ∈ fields, ∀ p, RelatesOk (CutsTo limits)
      (readMemoryWith types memory more ofRef p f.2)
      (readMemoryWith types memory limits ofRef' p f.2)) (offset : Nat) :
    RelatesOk (fun a b => b = cutPairs limits a)
      (readMemoryFields types memory more ofRef offset fields)
      (readMemoryFields types memory limits ofRef' offset fields) := by
  induction fields generalizing offset with
  | nil => exact .pure rfl
  | cons f rest ih =>
    obtain ⟨hfirst, hrest⟩ := List.forall_mem_cons.1 h
    rw [readMemoryFields, readMemoryFields]
    split
    · exact ih hrest offset
    · refine (readMember_cut hfirst offset).bind ?_
      rintro v _ rfl
      refine (ih hrest _).bind ?_
      rintro values _ rfl
      exact .pure rfl

/-- With smaller limits, the same is read from memory and cut. -/
theorem readMemoryWith_cut (hle : limits ≤ more) {t : Ty} (hcut : ∀ s ∈ t.parts, IsCuttable s)
    (hrefs : ∀ r, .structRef r ∈ t.parts → ∀ p,
      RelatesOk (CutsTo limits) (ofRef r p) (ofRef' r p)) (pointer : Nat) :
    RelatesOk (CutsTo limits) (readMemoryWith types memory more ofRef pointer t)
      (readMemoryWith types memory limits ofRef' pointer t) := by
  induction t using Ty.byKind generalizing pointer with
  | value t hv =>
    rw [readMemoryWith_of_isValue hv, readMemoryWith_of_isValue hv]
    exact .pure (cut_ofWord types hv _).symm
  | bytes =>
    refine (Memory.slice_cut hle _ _ _).bind ?_
    rintro data _ rfl
    exact .pure rfl
  | string => exact absurd rfl (hcut _ (Ty.mem_parts_self _)).2
  | struct name fields ih =>
    have hfields : ∀ f ∈ fields, ∀ p, RelatesOk (CutsTo limits)
        (readMemoryWith types memory more ofRef p f.2)
        (readMemoryWith types memory limits ofRef' p f.2) := by
      intro f hf
      exact ih f hf (fun s hs => hcut s (Ty.mem_parts_of_mem_fields hf hs))
        fun r hr => hrefs r (Ty.mem_parts_of_mem_fields hf hr)
    exact (readMemoryFields_cut hfields _).map fun _ _ h => congrArg Value.struct h
  | structRef r => exact hrefs r (Ty.mem_parts_self _) pointer
  | staticArray element length ih =>
    have helement := ih (fun s hs => hcut s (List.mem_cons_of_mem _ hs))
      fun r hr => hrefs r (List.mem_cons_of_mem _ hr)
    exact (readWords_cut hle (readMember_cut helement) _ _).map
      fun _ _ h => congrArg Value.array h
  | dynamicArray element ih =>
    have helement := ih (fun s hs => hcut s (List.mem_cons_of_mem _ hs))
      fun r hr => hrefs r (List.mem_cons_of_mem _ hr)
    exact (readWords_cut hle (readMember_cut helement) _ _).map
      fun _ _ h => congrArg Value.array h
  | mapping k v => exact absurd (hcut _ (Ty.mem_parts_self _)).1 (by simp [Ty.isMapping])

theorem readMemory_cut (hle : limits ≤ more) {t : Ty} (ht : ∀ s, types.Reaches t s → IsCuttable s)
    (pointer : Nat) : RelatesOk (CutsTo limits)
      (types.readMemory memory more t pointer) (types.readMemory memory limits t pointer) := by
  unfold readMemory Declared.unfold
  refine unfoldWithin_relates
    (R := fun read read' : Nat → Except ReadError Value =>
      ∀ p, RelatesOk (CutsTo limits) (read p) (read' p))
    (fun r p => .error _ _) ?_ unfoldLimit ht pointer
  intro ofRef ofRef' t hcut hrefs
  exact readMemoryWith_cut hle (fun s hs => hcut s (.part hs)) hrefs

end Memory

/-! ## Input -/

section Input

variable {input : Bytes}
  {ofRef ofRef' : StructRef → Nat → HeadCursor → Except ReadError (Value × HeadCursor)}

theorem readInputFields_cut {fields : List (String × Ty)}
    (h : ∀ f ∈ fields, ∀ base c, RelatesOk (CutsToAt limits)
      (readInputWith types input more ofRef base c f.2)
      (readInputWith types input limits ofRef' base c f.2)) (base : Nat) (c : HeadCursor) :
    RelatesOk
      (fun a b : List (String × Value) × HeadCursor => b = (cutPairs limits a.1, a.2))
      (readInputFields types input more ofRef base c fields)
      (readInputFields types input limits ofRef' base c fields) := by
  induction fields generalizing c with
  | nil => exact .pure rfl
  | cons f rest ih =>
    obtain ⟨hfirst, hrest⟩ := List.forall_mem_cons.1 h
    refine (hfirst base c).bind ?_
    rintro ⟨v, c⟩ _ rfl
    refine (ih hrest c).bind ?_
    rintro ⟨values, c⟩ _ rfl
    exact .pure rfl

/-- With smaller limits, the same is read from encoded input and cut. -/
theorem readInputWith_cut (hle : limits ≤ more) {t : Ty} (hcut : ∀ s ∈ t.parts, IsCuttable s)
    (hrefs : ∀ r, .structRef r ∈ t.parts → ∀ base c,
      RelatesOk (CutsToAt limits) (ofRef r base c) (ofRef' r base c))
    (base : Nat) (c : HeadCursor) :
    RelatesOk (CutsToAt limits) (readInputWith types input more ofRef base c t)
      (readInputWith types input limits ofRef' base c t) := by
  induction t using Ty.byKind generalizing base c with
  | value t hv =>
    rw [readInputWith_of_isValue hv, readInputWith_of_isValue hv]
    refine .same fun head => .same fun w => .pure ?_
    rw [CutsToAt, cut_ofWord types hv]
  | bytes =>
    refine .same fun head => .same fun length => (Memory.slice_cut hle _ _ _).bind ?_
    rintro data _ rfl
    exact .pure rfl
  | string => exact absurd rfl (hcut _ (Ty.mem_parts_self _)).2
  | struct name fields ih =>
    have hfields : ∀ f ∈ fields, ∀ base c, RelatesOk (CutsToAt limits)
        (readInputWith types input more ofRef base c f.2)
        (readInputWith types input limits ofRef' base c f.2) := by
      intro f hf
      exact ih f hf (fun s hs => hcut s (Ty.mem_parts_of_mem_fields hf hs))
        fun r hr => hrefs r (Ty.mem_parts_of_mem_fields hf hr)
    refine .same fun head => (readInputFields_cut hfields _ _).bind ?_
    rintro ⟨values, c⟩ _ rfl
    exact .pure rfl
  | structRef r => exact hrefs r (Ty.mem_parts_self _) base c
  | staticArray element length ih =>
    have helement := ih (fun s hs => hcut s (List.mem_cons_of_mem _ hs))
      fun r hr => hrefs r (List.mem_cons_of_mem _ hr)
    refine .same fun head => (readRepeated_cut hle (helement _) length _).bind ?_
    rintro ⟨items, c⟩ ⟨_, c'⟩ rfl
    exact .pure rfl
  | dynamicArray element ih =>
    have helement := ih (fun s hs => hcut s (List.mem_cons_of_mem _ hs))
      fun r hr => hrefs r (List.mem_cons_of_mem _ hr)
    refine .same fun head => .same fun length =>
      (readRepeated_cut hle (helement _) length _).bind ?_
    rintro ⟨items, c⟩ ⟨_, c'⟩ rfl
    exact .pure rfl
  | mapping k v => exact absurd (hcut _ (Ty.mem_parts_self _)).1 (by simp [Ty.isMapping])

theorem readInput_cut (hle : limits ≤ more) {t : Ty} (ht : ∀ s, types.Reaches t s → IsCuttable s)
    (base : Nat) (c : HeadCursor) : RelatesOk (CutsToAt limits)
      (types.readInput input more t base c)
      (types.readInput input limits t base c) := by
  unfold readInput Declared.unfold
  refine unfoldWithin_relates
    (R := fun read read' : Nat → HeadCursor → Except ReadError (Value × HeadCursor) =>
      ∀ base c, RelatesOk (CutsToAt limits) (read base c) (read' base c))
    (fun r base c => .error _ _) ?_ unfoldLimit ht base c
  intro ofRef ofRef' t hcut hrefs
  exact readInputWith_cut hle (fun s hs => hcut s (.part hs)) hrefs

theorem readElements_cut (hle : limits ≤ more) {element : Ty}
    (ht : ∀ s, types.Reaches element s → IsCuttable s) (base count : Nat) :
    RelatesOk (CutsTo limits) (types.readElements input more element base count)
      (types.readElements input limits element base count) :=
  (readRepeated_cut hle (readInput_cut hle ht base) count _).map fun _ _ h => congrArg Value.array h

theorem readTuple_cut (hle : limits ≤ more) {name : String} {fields : List (String × Ty)}
    (ht : ∀ s, types.Reaches (.struct name fields) s → IsCuttable s) (base : Nat) :
    RelatesOk (CutsTo limits) (types.readTuple input more fields base)
      (types.readTuple input limits fields base) := by
  -- references are followed here and not by unfolding the type
  have hrefs : ∀ r, .structRef r ∈ (Ty.struct name fields).parts → ∀ base c,
      RelatesOk (CutsToAt limits) (types.readInputRef input more r base c)
        (types.readInputRef input limits r base c) := by
    intro r hr base c
    unfold readInputRef
    cases hfollow : types.follow? r with
    | none => exact .error _ _
    | some u => exact readInput_cut hle (fun s hs => ht s (.follow hr hfollow hs)) base c
  have hfields : ∀ f ∈ fields, ∀ base c, RelatesOk (CutsToAt limits)
      (readInputWith types input more (types.readInputRef input more) base c f.2)
      (readInputWith types input limits (types.readInputRef input limits) base c f.2) := by
    intro f hf
    exact readInputWith_cut hle (fun s hs => ht s (.part (Ty.mem_parts_of_mem_fields hf hs)))
      fun r hr => hrefs r (Ty.mem_parts_of_mem_fields hf hr)
  refine (readInputFields_cut hfields base ⟨base⟩).map ?_
  rintro ⟨values, c⟩ _ rfl
  rfl

theorem readInputAtWith_cut {ofRef ofRef' : StructRef → Nat → Option Nat → Except ReadError Value}
    (hle : limits ≤ more) {t : Ty} (ht : ∀ s, types.Reaches t s → IsCuttable s)
    (hrefs : ∀ r, .structRef r ∈ t.parts → ∀ offset length,
      RelatesOk (CutsTo limits) (ofRef r offset length) (ofRef' r offset length))
    (offset : Nat) (length : Option Nat) :
    RelatesOk (CutsTo limits) (readInputAtWith types input more ofRef t offset length)
      (readInputAtWith types input limits ofRef' t offset length) := by
  have hhead : RelatesOk (CutsTo limits)
      ((types.readInput input more t 0 ⟨offset⟩).map Prod.fst)
      ((types.readInput input limits t 0 ⟨offset⟩).map Prod.fst) := by
    refine (readInput_cut hle ht 0 ⟨offset⟩).map ?_
    rintro ⟨v, c⟩ _ rfl
    rfl
  cases t with
  | structRef r => exact hrefs r (Ty.mem_parts_self _) offset length
  | bytes =>
    cases length with
    | none => exact hhead
    | some length => exact (Memory.slice_cut hle _ _ _).map fun _ _ h => congrArg Value.bytes h
  | string => exact absurd rfl (ht _ (.part (Ty.mem_parts_self _))).2
  | dynamicArray element =>
    cases length with
    | none => exact hhead
    | some length =>
      exact readElements_cut hle
        (fun s hs => ht s (hs.of_parts fun _ hp => List.mem_cons_of_mem _ hp)) offset length
  | staticArray element count =>
    exact readElements_cut hle
      (fun s hs => ht s (hs.of_parts fun _ hp => List.mem_cons_of_mem _ hp)) offset count
  | struct name fields => exact readTuple_cut hle ht offset
  | mapping k v => exact absurd (ht _ (.part (Ty.mem_parts_self _))).1 (by simp [Ty.isMapping])
  | _ =>
    -- a value type
    refine RelatesOk.map (R := Eq) (fun w hw => ⟨w, hw, rfl⟩) ?_
    rintro w _ rfl
    rfl

theorem readInputAt_cut (hle : limits ≤ more) {t : Ty} (ht : ∀ s, types.Reaches t s → IsCuttable s)
    (offset : Nat) (length : Option Nat) : RelatesOk (CutsTo limits)
      (types.readInputAt input more t offset length)
      (types.readInputAt input limits t offset length) := by
  unfold readInputAt Declared.unfold
  refine unfoldWithin_relates
    (R := fun read read' : Nat → Option Nat → Except ReadError Value =>
      ∀ offset length, RelatesOk (CutsTo limits) (read offset length)
        (read' offset length))
    (fun r offset length => .error _ _) ?_ unfoldLimit ht offset length
  intro ofRef ofRef' t hcut hrefs
  exact readInputAtWith_cut hle hcut hrefs

end Input

/-! ## Variables on the stack -/

theorem readStack_cut (hle : limits ≤ more) {t : Ty} (ht : ∀ s, types.Reaches t s → IsCuttable s)
    (view : StackView) (index : Nat) (location : Location) :
    RelatesOk (CutsTo limits)
      (types.readStack (view.withLimits more) t index location)
      (types.readStack (view.withLimits limits) t index location) := by
  refine .same fun words => ?_
  cases location with
  | stack =>
    dsimp only
    split
    · rename_i hv
      exact .pure (cut_ofWord types hv _).symm
    · exact readMemory_cut hle ht _
  | memory => exact readMemory_cut hle ht _
  | calldata => exact readInputAt_cut hle ht _ _
  | storage =>
    unfold StackView.withLimits
    cases view.storage with
    | none => exact .error _ _
    | some storage =>
      refine (readStorage_cut hle ht _).bind ?_
      rintro ⟨v, c⟩ _ rfl
      exact .pure rfl

/--
**Smaller limits only cut what is read.** Let a type have neither texts nor mappings anywhere
inside, whatever references are followed. If something is read of it with some limits, then with
smaller limits the same is read and cut to these: from storage and from a head in the input, where
the cursor ends at the same place, from memory, and of a variable whose data is in the input or that
the stack refers to.
-/
theorem reads_cut (types : Declared) {t : Ty}
    (ht : ∀ s, types.Reaches t s → s.isMapping = false ∧ s ≠ .string) {limits more : Limits}
    (hle : limits ≤ more) :
    (∀ (view : StorageView) c v next,
      types.readStorage { view with limits := more } t c = .ok (v, next) →
        types.readStorage { view with limits } t c = .ok (v.cut limits, next)) ∧
    (∀ memory pointer v, types.readMemory memory more t pointer = .ok v →
      types.readMemory memory limits t pointer = .ok (v.cut limits)) ∧
    (∀ input base c v next, types.readInput input more t base c = .ok (v, next) →
      types.readInput input limits t base c = .ok (v.cut limits, next)) ∧
    (∀ input offset length v, types.readInputAt input more t offset length = .ok v →
      types.readInputAt input limits t offset length = .ok (v.cut limits)) ∧
    ∀ (view : StackView) index location v,
      types.readStack (view.withLimits more) t index location = .ok v →
        types.readStack (view.withLimits limits) t index location = .ok (v.cut limits) := by
  refine ⟨?_, ?_, ?_, ?_, ?_⟩
  · intro view c v next h
    obtain ⟨_, hread, rfl⟩ := readStorage_cut hle ht c _ h
    exact hread
  · intro memory pointer v h
    obtain ⟨_, hread, rfl⟩ := readMemory_cut hle ht pointer _ h
    exact hread
  · intro input base c v next h
    obtain ⟨_, hread, rfl⟩ := readInput_cut hle ht base c _ h
    exact hread
  · intro input offset length v h
    obtain ⟨_, hread, rfl⟩ := readInputAt_cut hle ht offset length _ h
    exact hread
  · intro view index location v h
    obtain ⟨_, hread, rfl⟩ := readStack_cut hle ht view index location _ h
    exact hread

set_option maxRecDepth 2000 in
/-- The first of two byte strings, and the first two of its three bytes. -/
theorem reads_cut_struct :
    let types : Declared := {}
    let t : Ty := .struct "S" [("tags", .staticArray .bytes 2), ("n", .uint 1)]
    let limits : Limits := { array := 1, bytes := 2 }
    let more : Limits := { array := 9, bytes := 3 }
    let tag : Bytes := [0x61, 0x62, 0x63]
    let v : Value := .struct [("tags", .array [.bytes tag, .bytes tag]), ("n", .uint 6)]
    let v' : Value := .struct [("tags", .array [.bytes [0x61, 0x62]]), ("n", .uint 6)]
    let view : StorageView :=
      ⟨fun _ _ => .ok (.ofBytes (tag ++ List.replicate 28 0 ++ [6])), 0, [], {}⟩
    let memory : Bytes := (64 : Word).toBytes ++ (6 : Word).toBytes ++ (128 : Word).toBytes ++
      (128 : Word).toBytes ++ (3 : Word).toBytes ++ tag
    (∀ s, types.Reaches t s → s.isMapping = false ∧ s ≠ .string) ∧ limits ≤ more ∧
      (types.readStorage { view with limits := more } t .origin = .ok (v, ⟨3, 0⟩) ∧
        types.readStorage { view with limits } t .origin = .ok (v', ⟨3, 0⟩)) ∧
      types.readMemory memory more t 0 = .ok v ∧ types.readMemory memory limits t 0 = .ok v' := by
  intro types t limits more tag v v' view memory
  have ht : ∀ s, types.Reaches t s → s.isMapping = false ∧ s ≠ .string := by
    rintro s (hs | ⟨hr, -, -⟩)
    · simp only [t, Ty.parts, Ty.partsOfFields, List.mem_cons, List.mem_append, List.not_mem_nil,
        or_false] at hs
      rcases hs with rfl | (rfl | rfl) | rfl <;> simp [Ty.isMapping]
    · simp [t, Ty.parts, Ty.partsOfFields] at hr
  have hle : limits ≤ more := ⟨by decide, by decide, by decide⟩
  have hstorage : types.readStorage { view with limits := more } t .origin = .ok (v, ⟨3, 0⟩) := by
    dsimp only [types, t, more, tag, v, view]
    rfl
  have hmemory : types.readMemory memory more t 0 = .ok v := by
    dsimp only [types, t, more, tag, v, memory]
    rfl
  have hcut : v.cut limits = v' := by
    simp [v, v', tag, limits, Value.cut, Value.cutItems, Value.cutPairs]
  obtain ⟨ofStorage, ofMemory, -, -, -⟩ := reads_cut types ht hle
  rw [← hcut]
  exact ⟨ht, hle, ⟨hstorage, ofStorage view _ _ _ hstorage⟩, hmemory, ofMemory _ _ _ hmemory⟩

end Declared

end Solscope
