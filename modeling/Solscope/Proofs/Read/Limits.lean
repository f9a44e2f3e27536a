import Solscope.Proofs.Input.RoundTrip
import Solscope.Proofs.Read.Rows
import Solscope.Proofs.Storage.Encoding
import Solscope.Proofs.Ty.References
import Solscope.Proofs.Value.Bounds
import Solscope.Read.Stack

/-!
# What is read stays within the limits

The lengths of arrays, mappings and byte strings are found in the data, so whoever wrote the data
chose them. A reader takes no more of them than its limits say, wherever the data lives, how deep
inside the value it is, and whatever references are followed to it.

* `Value.Capped`: no part of a value is longer than the limits say, texts counted in characters.
* `Declared.capped_readStorageWith`, `capped_readMemoryWith`, `capped_readInputWith`: one level of
  each reader, given that references are read within the limits.
* `Declared.reads_capped`: **every value that is read stays within the limits.**
-/

namespace Solscope

namespace Value

variable {limits : Limits}

/-- Whether a value itself has no more items, entries, bytes or characters than the limits say. -/
def isCapped (limits : Limits) : Value → Bool
  | bytes data => data.length ≤ limits.bytes
  | string text => text.length ≤ limits.bytes
  | array items => items.length ≤ limits.array
  | mapping entries => entries.length ≤ limits.mapping
  | _ => true

/-- No part of a value is longer than the limits say. -/
def Capped (limits : Limits) (v : Value) : Prop := ∀ w ∈ v.parts, w.isCapped limits = true

instance (limits : Limits) (v : Value) : Decidable (v.Capped limits) :=
  inferInstanceAs (Decidable (∀ w ∈ v.parts, w.isCapped limits = true))

namespace Capped

theorem bytes {data : Bytes} (h : data.length ≤ limits.bytes) : (bytes data).Capped limits := by
  intro w hw
  obtain rfl := List.mem_singleton.1 hw
  simpa [isCapped] using h

/-- A text has no more characters than the bytes that it is read from. -/
theorem ofUtf8 {data : Bytes} (h : data.length ≤ limits.bytes) :
    (string (Text.ofUtf8 data)).Capped limits := by
  intro w hw
  obtain rfl := List.mem_singleton.1 hw
  have hlength := Text.length_ofUtf8_le data
  simpa [isCapped] using hlength.trans h

theorem array {items : List Value} (hlength : items.length ≤ limits.array)
    (h : ∀ v ∈ items, v.Capped limits) : (array items).Capped limits := by
  intro w hw
  rcases List.mem_cons.1 hw with rfl | hw
  · simpa [isCapped] using hlength
  · obtain ⟨v, hv, hw⟩ := mem_partsOfItems.1 hw
    exact h v hv w hw

theorem struct {fields : List (String × Value)} (h : ∀ f ∈ fields, f.2.Capped limits) :
    (struct fields).Capped limits := by
  intro w hw
  rcases List.mem_cons.1 hw with rfl | hw
  · rfl
  · obtain ⟨f, hf, hw⟩ := mem_partsOfPairs.1 hw
    exact h f hf w hw

theorem mapping {entries : List (String × Value)} (hlength : entries.length ≤ limits.mapping)
    (h : ∀ e ∈ entries, e.2.Capped limits) : (mapping entries).Capped limits := by
  intro w hw
  rcases List.mem_cons.1 hw with rfl | hw
  · simpa [isCapped] using hlength
  · obtain ⟨e, he, hw⟩ := mem_partsOfPairs.1 hw
    exact h e he w hw

/-- What the bits of a value type stand for has no length. -/
theorem ofBits (types : Declared) {t : Ty} (ht : t.isValue = true) (bits : Nat) :
    (types.ofBits t bits).Capped limits := by
  intro w hw
  cases t with
  | bytes | string | struct | structRef | staticArray | dynamicArray | mapping => cases ht
  | _ =>
    obtain rfl := List.mem_singleton.1 hw
    rfl

theorem ofWord (types : Declared) {t : Ty} (ht : t.isValue = true) (w : Word) :
    (types.ofWord t w).Capped limits :=
  ofBits types ht _

theorem array_le {items : List Value} (h : (Value.array items).Capped limits) :
    items.length ≤ limits.array := by
  simpa [isCapped] using h _ (mem_parts_self _)

theorem item {items : List Value} (h : (Value.array items).Capped limits) {v : Value}
    (hv : v ∈ items) : v.Capped limits := fun w hw => h w (mem_parts_of_item hv hw)

theorem member {fields : List (String × Value)} (h : (Value.struct fields).Capped limits)
    {f : String × Value} (hf : f ∈ fields) : f.2.Capped limits := fun w hw =>
  h w (mem_parts_of_member hf hw)

/-- What memory has room for under some limits is within them. -/
theorem ofInMemory {v : Value} (h : v.Capped limits.inMemory) : v.Capped limits := by
  intro w hw
  have hcapped := h w hw
  cases w with
  | bytes | string | array =>
    rw [isCapped, decide_eq_true_eq] at hcapped ⊢
    exact hcapped.trans (Nat.min_le_left ..)
  | _ => exact hcapped

end Capped

end Value

/-- The limits that a variable of a location is read with: storage has its own. -/
def StackView.limitsOf (view : StackView) : Location → Limits
  | .storage => (view.storage.map (·.limits)).getD view.limits
  | _ => view.limits

/-- A slice of data has no more bytes than are asked for. -/
theorem Memory.length_slice_le (data : Bytes) (offset length : Nat) :
    HoldsOfOk (fun part : Bytes => part.length ≤ length) (Memory.slice data offset length) := by
  intro part hpart
  unfold Memory.slice at hpart
  split at hpart
  · obtain rfl := Except.ok.inj hpart
    exact List.length_take_le ..
  · cases hpart

/-! ## Storage -/

namespace StorageView

/-- A byte string in storage is cut to the limit, in a slot of its own or not. -/
theorem length_byteString_le (view : StorageView) (slot : Word) :
    HoldsOfOk (fun data : Bytes => data.length ≤ view.limits.inMemory.bytes)
      (view.byteString slot) := by
  refine .bind fun header _ => ?_
  split
  · refine .pure (Nat.le_min.2 ?_)
    have hslot : 31 ≤ Limits.roomForBytes := by decide
    have htake := List.length_take_le
      (min (min (header.toNat % 256 / 2) 31) view.limits.bytes) header.toBytes
    omega
  · refine .bind fun count hcount => .bind fun data _ => .pure (Nat.le_min.2 ?_)
    obtain ⟨rfl, hroom⟩ := Limits.byteCount_eq_ok_iff.1 hcount
    have htake := List.length_take_le (min (Size.clamp (header.toNat / 2)) view.limits.bytes) data
    omega

/-- Items are read up to the limit, and as far as memory has room. -/
theorem items_holds {σ α : Type} {P : α → Prop} {view : StorageView}
    {read : σ → Except ReadError (α × σ)} (h : ∀ s, HoldsOfOk (fun a => P a.1) (read s))
    (length : Nat) (s : σ) :
    HoldsOfOk (fun items => items.length ≤ view.limits.inMemory.array ∧ ∀ x ∈ items, P x)
      (view.items read length s) := by
  refine .bind fun count hcount => .bind fun a ha => .pure ?_
  obtain ⟨rfl, hroom⟩ := Limits.itemCount_eq_ok_iff.1 hcount
  obtain ⟨hlength, hitems⟩ := holds_readRepeated h _ s a ha
  exact ⟨Nat.le_min.2 (by omega), hitems⟩

/-- Entries are added up to the limit. -/
theorem entriesFrom_holds {limit : Nat} {label? : Preimage → Option String}
    {value : Word → Except ReadError Value} {P : Value → Prop} (h : ∀ slot, HoldsOfOk P (value slot))
    (ps : Preimages) {entries : List (String × Value)} (hlength : entries.length ≤ limit)
    (hentries : ∀ e ∈ entries, P e.2) :
    HoldsOfOk (fun found : List (String × Value) => found.length ≤ limit ∧ ∀ e ∈ found, P e.2)
      (entriesFrom limit label? value entries ps) := by
  induction ps generalizing entries with
  | nil => exact .pure ⟨hlength, hentries⟩
  | cons p rest ih =>
    unfold entriesFrom
    split
    · exact .pure ⟨hlength, hentries⟩
    · rename_i hroom
      split
      · exact ih hlength hentries
      · -- there is room for one entry more
        refine .bind fun v hv => ih ?_ fun e he => ?_
        · have hinsert := Ordered.length_insert_le ‹String› v entries
          omega
        · rcases Ordered.eq_or_mem_of_mem_insert he with rfl | he
          · exact h p.hash v hv
          · exact hentries e he

end StorageView

namespace Declared

variable {types : Declared} {limits : Limits}

section Storage

variable {view : StorageView}
  {ofRef : StructRef → SlotCursor → Except ReadError (Value × SlotCursor)}

theorem capped_readStorageFields {fields : List (String × Ty)}
    (h : ∀ f ∈ fields, ∀ c,
      HoldsOfOk (fun a : Value × SlotCursor => a.1.Capped view.limits.inMemory)
        (readStorageWith types view ofRef c f.2)) (c : SlotCursor) :
    HoldsOfOk
      (fun a : List (String × Value) × SlotCursor => ∀ f ∈ a.1, f.2.Capped view.limits.inMemory)
      (readStorageFields types view ofRef c fields) := by
  induction fields generalizing c with
  | nil => exact .pure (by simp)
  | cons f rest ih =>
    obtain ⟨hfirst, hrest⟩ := List.forall_mem_cons.1 h
    refine .bind fun a ha => .bind fun b hb => .pure ?_
    exact List.forall_mem_cons.2 ⟨hfirst c a ha, ih hrest a.2 b hb⟩

theorem capped_readStorageWith
    (hrefs : ∀ r c,
      HoldsOfOk (fun a : Value × SlotCursor => a.1.Capped view.limits.inMemory) (ofRef r c))
    (t : Ty) (c : SlotCursor) :
    HoldsOfOk (fun a : Value × SlotCursor => a.1.Capped view.limits.inMemory)
      (readStorageWith types view ofRef c t) := by
  induction t using Ty.byKind generalizing c with
  | value t hv =>
    rw [readStorageWith_scalar hv]
    exact .bind fun w _ => .pure (.ofBits types hv _)
  | bytes => exact .bind fun data hdata => .pure (.bytes (view.length_byteString_le _ data hdata))
  | string => exact .bind fun data hdata => .pure (.ofUtf8 (view.length_byteString_le _ data hdata))
  | struct name fields ih =>
    exact .bind fun a ha => .pure (.struct (capped_readStorageFields ih _ a ha))
  | structRef r => exact hrefs r c
  | staticArray element length ih =>
    refine .bind fun items hread => .pure ?_
    obtain ⟨hlength, hitems⟩ := StorageView.items_holds ih _ _ items hread
    exact .array hlength hitems
  | dynamicArray element ih =>
    refine .bind fun header _ => .bind fun items hread => .pure ?_
    obtain ⟨hlength, hitems⟩ := StorageView.items_holds ih _ _ items hread
    exact .array hlength hitems
  | mapping key value _ ih =>
    refine .bind fun entries hentries => .pure ?_
    obtain ⟨hlength, hvalues⟩ := StorageView.entriesFrom_holds (fun slot => .map (ih ⟨slot, 0⟩)) _
      (Nat.zero_le _) (by simp) entries hentries
    exact .mapping hlength hvalues

/-- What is read from storage stays within the limits, and memory has room for it. -/
theorem capped_readStorage (types : Declared) (view : StorageView) (t : Ty) (c : SlotCursor) :
    HoldsOfOk (fun a : Value × SlotCursor => a.1.Capped view.limits.inMemory)
      (types.readStorage view t c) :=
  unfoldWithin_holds
    (Q := fun read : SlotCursor → Except ReadError (Value × SlotCursor) =>
      ∀ c, HoldsOfOk (fun a => a.1.Capped view.limits.inMemory) (read c))
    (fun _ _ => .error _) (fun _ hrefs t => capped_readStorageWith hrefs t) unfoldLimit t c

end Storage

section Memory

variable {memory : Bytes} {ofRef : StructRef → Nat → Except ReadError Value}

/-- As many members are read as are asked for. -/
theorem holds_readWords {α : Type} {P : α → Prop} {read : Nat → Except ReadError α}
    (h : ∀ offset, HoldsOfOk P (read offset)) (start index count : Nat) :
    HoldsOfOk (fun items => items.length = count ∧ ∀ a ∈ items, P a)
      (readWords read start index count) := by
  induction count generalizing index with
  | zero => exact .pure ⟨rfl, by simp⟩
  | succ count ih =>
    refine .bind fun a ha => .bind fun rest hrest => .pure ?_
    obtain ⟨hlength, hitems⟩ := ih (index + 1) rest hrest
    exact ⟨congrArg (· + 1) hlength, List.forall_mem_cons.2 ⟨h _ a ha, hitems⟩⟩

theorem capped_readMember {t : Ty} {read : Nat → Except ReadError Value}
    (h : ∀ p, HoldsOfOk (Value.Capped limits) (read p)) (offset : Nat) :
    HoldsOfOk (Value.Capped limits) (types.readMember memory t read offset) := by
  unfold readMember
  split
  · rename_i hv
    exact .pure (.ofWord types hv _)
  · exact h _

theorem capped_readMemoryFields {fields : List (String × Ty)}
    (h : ∀ f ∈ fields, ∀ p, HoldsOfOk (Value.Capped limits)
      (readMemoryWith types memory limits ofRef p f.2)) (offset : Nat) :
    HoldsOfOk (fun values : List (String × Value) => ∀ f ∈ values, f.2.Capped limits)
      (readMemoryFields types memory limits ofRef offset fields) := by
  induction fields generalizing offset with
  | nil => exact .pure (by simp)
  | cons f rest ih =>
    obtain ⟨hfirst, hrest⟩ := List.forall_mem_cons.1 h
    rw [readMemoryFields]
    split
    · exact ih hrest offset
    · refine .bind fun v hv => .bind fun values hvalues => .pure ?_
      exact List.forall_mem_cons.2
        ⟨capped_readMember hfirst offset v hv, ih hrest _ values hvalues⟩

theorem capped_readMemoryWith (hrefs : ∀ r p, HoldsOfOk (Value.Capped limits) (ofRef r p)) (t : Ty)
    (pointer : Nat) :
    HoldsOfOk (Value.Capped limits) (readMemoryWith types memory limits ofRef pointer t) := by
  induction t using Ty.byKind generalizing pointer with
  | value t hv =>
    rw [readMemoryWith_of_isValue hv]
    exact .pure (.ofWord types hv _)
  | bytes =>
    refine .bind fun data hdata => .pure (.bytes ?_)
    have hlength := Memory.length_slice_le _ _ _ data hdata
    omega
  | string =>
    refine .bind fun data hdata => .pure (.ofUtf8 ?_)
    have hlength := Memory.length_slice_le _ _ _ data hdata
    omega
  | struct name fields ih => exact .map fun a ha => .struct (capped_readMemoryFields ih _ a ha)
  | structRef r => exact hrefs r pointer
  | staticArray element length ih | dynamicArray element ih =>
    refine .map fun items hitems => ?_
    obtain ⟨hlength, hcapped⟩ := holds_readWords (capped_readMember ih) _ _ _ items hitems
    exact .array (by omega) hcapped
  | mapping key value => exact .error _

/-- What is read from memory stays within the limits. -/
theorem capped_readMemory (types : Declared) (memory : Bytes) (limits : Limits) (t : Ty)
    (pointer : Nat) :
    HoldsOfOk (Value.Capped limits) (types.readMemory memory limits t pointer) :=
  unfoldWithin_holds
    (Q := fun read : Nat → Except ReadError Value => ∀ p, HoldsOfOk (Value.Capped limits) (read p))
    (fun _ _ => .error _) (fun _ hrefs t => capped_readMemoryWith hrefs t) unfoldLimit t pointer

end Memory

section Input

variable {input : Bytes}
  {ofRef : StructRef → Nat → HeadCursor → Except ReadError (Value × HeadCursor)}

theorem capped_readInputFields {fields : List (String × Ty)}
    (h : ∀ f ∈ fields, ∀ base c, HoldsOfOk (fun a : Value × HeadCursor => a.1.Capped limits)
      (readInputWith types input limits ofRef base c f.2)) (base : Nat) (c : HeadCursor) :
    HoldsOfOk (fun a : List (String × Value) × HeadCursor => ∀ f ∈ a.1, f.2.Capped limits)
      (readInputFields types input limits ofRef base c fields) := by
  induction fields generalizing c with
  | nil => exact .pure (by simp)
  | cons f rest ih =>
    obtain ⟨hfirst, hrest⟩ := List.forall_mem_cons.1 h
    refine .bind fun a ha => .bind fun b hb => .pure ?_
    exact List.forall_mem_cons.2 ⟨hfirst base c a ha, ih hrest a.2 b hb⟩

theorem capped_readInputWith
    (hrefs : ∀ r base c, HoldsOfOk (fun a : Value × HeadCursor => a.1.Capped limits)
      (ofRef r base c)) (t : Ty) (base : Nat) (c : HeadCursor) :
    HoldsOfOk (fun a : Value × HeadCursor => a.1.Capped limits)
      (readInputWith types input limits ofRef base c t) := by
  induction t using Ty.byKind generalizing base c with
  | value t hv =>
    rw [readInputWith_of_isValue hv]
    exact .bind fun a _ => .bind fun w _ => .pure (.ofWord types hv _)
  | bytes =>
    refine .bind fun a _ => .bind fun size _ => .bind fun data hdata => .pure (.bytes ?_)
    have hlength := Memory.length_slice_le _ _ _ data hdata
    omega
  | string =>
    refine .bind fun a _ => .bind fun size _ => .bind fun data hdata => .pure (.ofUtf8 ?_)
    have hlength := Memory.length_slice_le _ _ _ data hdata
    omega
  | struct name fields ih =>
    exact .bind fun a _ => .bind fun b hb => .pure (.struct (capped_readInputFields ih _ _ b hb))
  | structRef r => exact hrefs r base c
  | staticArray element length ih =>
    refine .bind fun a _ => .bind fun b hb => .pure ?_
    obtain ⟨hlength, hitems⟩ := holds_readRepeated (ih a.1) _ _ b hb
    exact .array (by omega) hitems
  | dynamicArray element ih =>
    refine .bind fun a _ => .bind fun size _ => .bind fun b hb => .pure ?_
    obtain ⟨hlength, hitems⟩ := holds_readRepeated (ih _) _ _ b hb
    exact .array (by omega) hitems
  | mapping key value => exact .error _

/-- What is read from a head in the input stays within the limits. -/
theorem capped_readInput (types : Declared) (input : Bytes) (limits : Limits) (t : Ty) (base : Nat)
    (c : HeadCursor) :
    HoldsOfOk (fun a : Value × HeadCursor => a.1.Capped limits)
      (types.readInput input limits t base c) :=
  unfoldWithin_holds
    (Q := fun read : Nat → HeadCursor → Except ReadError (Value × HeadCursor) =>
      ∀ base c, HoldsOfOk (fun a => a.1.Capped limits) (read base c))
    (fun _ _ _ => .error _) (fun _ hrefs t => capped_readInputWith hrefs t) unfoldLimit t base c

theorem capped_readElements (element : Ty) (base count : Nat) :
    HoldsOfOk (Value.Capped limits) (types.readElements input limits element base count) := by
  refine .map fun a ha => ?_
  obtain ⟨hlength, hitems⟩ :=
    holds_readRepeated (types.capped_readInput input limits element base) _ _ a ha
  exact .array (by omega) hitems

theorem capped_readTuple (fields : List (String × Ty)) (base : Nat) :
    HoldsOfOk (Value.Capped limits) (types.readTuple input limits fields base) := by
  have href : ∀ r base c, HoldsOfOk (fun a : Value × HeadCursor => a.1.Capped limits)
      (types.readInputRef input limits r base c) := by
    intro r base c
    unfold readInputRef
    split
    · exact types.capped_readInput input limits _ base c
    · exact .error _
  refine .map fun a ha => .struct ?_
  exact capped_readInputFields (fun f _ => capped_readInputWith href f.2) base _ a ha

theorem capped_readInputAtWith {ofRef : StructRef → Nat → Option Nat → Except ReadError Value}
    (hrefs : ∀ r offset length, HoldsOfOk (Value.Capped limits) (ofRef r offset length)) (t : Ty)
    (offset : Nat) (length : Option Nat) :
    HoldsOfOk (Value.Capped limits) (readInputAtWith types input limits ofRef t offset length) := by
  have hhead : HoldsOfOk (Value.Capped limits)
      ((types.readInput input limits t 0 ⟨offset⟩).map Prod.fst) :=
    .map (types.capped_readInput input limits t 0 ⟨offset⟩)
  cases t with
  | structRef r => exact hrefs r offset length
  | bytes =>
    cases length with
    | none => exact hhead
    | some length =>
      refine .map fun data hdata => .bytes ?_
      have hlength := Memory.length_slice_le _ _ _ data hdata
      omega
  | string =>
    cases length with
    | none => exact hhead
    | some length =>
      refine .map fun data hdata => .ofUtf8 ?_
      have hlength := Memory.length_slice_le _ _ _ data hdata
      omega
  | dynamicArray element =>
    cases length with
    | none => exact hhead
    | some length => exact capped_readElements element offset length
  | staticArray element count => exact capped_readElements element offset count
  | struct name fields => exact capped_readTuple fields offset
  | mapping key value => exact .error _
  | _ => exact .map fun w _ => .ofWord types rfl w

/-- What is read of a variable in the input stays within the limits. -/
theorem capped_readInputAt (types : Declared) (input : Bytes) (limits : Limits) (t : Ty)
    (offset : Nat) (length : Option Nat) :
    HoldsOfOk (Value.Capped limits) (types.readInputAt input limits t offset length) :=
  unfoldWithin_holds
    (Q := fun read : Nat → Option Nat → Except ReadError Value =>
      ∀ offset length, HoldsOfOk (Value.Capped limits) (read offset length))
    (fun _ _ _ => .error _) (fun _ hrefs t => capped_readInputAtWith hrefs t) unfoldLimit t offset
    length

end Input

/-! ## Variables on the stack -/

/-- What is read of a variable on the stack stays within the limits of where its data lives. -/
theorem capped_readStack (types : Declared) (view : StackView) (t : Ty) (index : Nat)
    (location : Location) :
    HoldsOfOk (Value.Capped (view.limitsOf location)) (types.readStack view t index location) := by
  refine .bind fun words _ => ?_
  cases location with
  | stack =>
    dsimp only
    split
    · rename_i hv
      exact .pure (.ofWord types hv _)
    · exact types.capped_readMemory _ _ _ _
  | memory => exact types.capped_readMemory _ _ _ _
  | calldata => exact types.capped_readInputAt _ _ _ _ _
  | storage =>
    unfold StackView.limitsOf
    cases view.storage with
    | none => exact .error _
    | some storage =>
      exact .bind fun a ha => .pure (types.capped_readStorage storage t _ a ha).ofInMemory

/--
**Every value that is read stays within the limits**, with everything inside it: of any type, from
storage, from memory, from a head in the input, and of a variable whose data is in the input or that
the stack refers to.
-/
theorem reads_capped (types : Declared) (t : Ty) (limits : Limits) :
    (∀ (view : StorageView) c v next, view.limits = limits →
      types.readStorage view t c = .ok (v, next) → v.Capped limits) ∧
    (∀ memory pointer v, types.readMemory memory limits t pointer = .ok v → v.Capped limits) ∧
    (∀ input base c v next, types.readInput input limits t base c = .ok (v, next) →
      v.Capped limits) ∧
    (∀ input offset length v, types.readInputAt input limits t offset length = .ok v →
      v.Capped limits) ∧
    ∀ (view : StackView) index location v, view.limitsOf location = limits →
      types.readStack view t index location = .ok v → v.Capped limits := by
  refine ⟨?_, ?_, ?_, ?_, ?_⟩
  · rintro view c v next rfl h
    exact (types.capped_readStorage view t c _ h).ofInMemory
  · intro memory pointer v h
    exact types.capped_readMemory memory limits t pointer v h
  · intro input base c v next h
    exact types.capped_readInput input limits t base c _ h
  · intro input offset length v h
    exact types.capped_readInputAt input limits t offset length v h
  · rintro view index location v rfl h
    exact types.capped_readStack view t index location v h

/-- One of three texts, and one of its two bytes, which spells no character. -/
theorem reads_capped_text :
    let types : Declared := {}
    let t : Ty := .staticArray .string 3
    let limits : Limits := { array := 1, bytes := 1 }
    let v : Value := .array [.string (.ofList [Text.replacement])]
    let storage : StorageView :=
      ⟨fun _ _ => .ok (.ofBytes ([0xC3, 0xA9] ++ List.replicate 29 0 ++ [4])), .ofNat 0, [], limits⟩
    let memory : Bytes := (32 : Word).toBytes ++ (2 : Word).toBytes ++ [0xC3, 0xA9]
    let input : Bytes := (32 : Word).toBytes ++ memory
    let stack : StackView := ⟨[0], memory, input, some storage, limits⟩
    (types.readStorage storage t .origin = .ok (v, ⟨3, 0⟩) ∧ v.Capped limits) ∧
    (types.readMemory memory limits t 0 = .ok v ∧ v.Capped limits) ∧
    (types.readInput input limits t 0 ⟨0⟩ = .ok (v, ⟨32⟩) ∧ v.Capped limits) ∧
    (types.readInputAt input limits t 32 none = .ok v ∧ v.Capped limits) ∧
    types.readStack stack t 0 .storage = .ok v ∧ v.Capped limits := by
  have both {P Q : Prop} (h : P) (f : P → Q) : P ∧ Q := ⟨h, f h⟩
  obtain ⟨ofStorage, ofMemory, ofInput, ofInputAt, ofStack⟩ :=
    reads_capped {} (.staticArray .string 3) { array := 1, bytes := 1 }
  dsimp only
  exact ⟨both rfl (ofStorage _ _ _ _ (by rfl)), both rfl (ofMemory _ _ _),
    both rfl (ofInput _ _ _ _ _), both rfl (ofInputAt _ _ _ _),
    both rfl (ofStack _ _ _ _ (by rfl))⟩

end Declared

end Solscope
