import Solscope.Proofs.Storage.Encoding
import Solscope.Proofs.Ty.References
import Solscope.Proofs.Value.Bounds
import Solscope.Read.Stack

/-!
# Room for what is read

Before the elements of an array or the bytes of a byte string are read from storage, room is made
for all of them, and there is none for more than memory can hold. Limits that stay below that never
ask for so much.

* `Fits`: reading does not come across a size that is none.
* `Declared.fits_readStorageWith`, `fits_readMemoryWith`: one level of the readers.
* `Declared.fits_readStack`: **under such limits everything fits but heads in the input.**
-/

namespace Solscope

/-- Reading does not come across a size that is none. -/
def Fits {α : Type} (x : Except ReadError α) : Prop := x ≠ .error .overflow

/-- Limits that memory has room for. -/
structure Limits.HaveRoom (limits : Limits) : Prop where
  array : limits.array ≤ Limits.roomForItems
  bytes : limits.bytes ≤ Limits.roomForBytes

namespace Fits

variable {α β σ : Type} {x : Except ReadError α} {f : α → Except ReadError β}

theorem ok (a : α) : Fits (.ok a) := fun h => nomatch h

theorem pure (a : α) : Fits (Pure.pure a : Except ReadError α) := ok a

theorem error {e : ReadError} (h : e ≠ .overflow) : Fits (.error e : Except ReadError α) :=
  fun he => h (Except.error.inj he)

theorem bind (h : Fits x) (hf : ∀ a, Fits (f a)) : Fits (x >>= f) := by
  cases x with
  | error e => exact fun he => h (congrArg Except.error (Except.error.inj he))
  | ok a => exact hf a

theorem map (h : Fits x) (g : α → β) : Fits (x.map g) := by
  cases x with
  | error e => exact fun he => h (congrArg Except.error (Except.error.inj he))
  | ok a => exact ok (g a)

theorem readRepeated {read : σ → Except ReadError (α × σ)} (h : ∀ s, Fits (read s)) (count : Nat)
    (s : σ) : Fits (Solscope.readRepeated read count s) := by
  induction count generalizing s with
  | zero => exact ok _
  | succ count ih => exact (h s).bind fun (_, s) => (ih s).bind fun _ => .pure _

end Fits

/-! ## Storage -/

namespace StorageView

variable {view : StorageView}

theorem word_fits (slot : Word) : Fits (view.word slot) := by
  unfold word
  split
  · exact .ok _
  · exact .error ReadError.noConfusion

theorem words_fits (slot : Word) (count : Nat) : Fits (view.words slot count) := by
  induction count generalizing slot with
  | zero => exact .ok _
  | succ count ih => exact (word_fits slot).bind fun _ => (ih (slot + 1)).bind fun _ => .pure _

theorem byteString_fits (h : view.limits.HaveRoom) (slot : Word) :
    Fits (view.byteString slot) := by
  refine (word_fits slot).bind fun header => ?_
  split
  · exact .pure _
  · have hroom : Fits (view.limits.byteCount (Size.clamp (header.toNat / 2))) := by
      have hle := h.bytes
      rw [Limits.byteCount, if_pos (by omega)]
      exact .ok _
    exact hroom.bind fun _ => (words_fits _ _).bind fun _ => .pure _

theorem items_fits {σ α : Type} (h : view.limits.HaveRoom) {read : σ → Except ReadError (α × σ)}
    (hread : ∀ s, Fits (read s)) (length : Nat) (s : σ) : Fits (view.items read length s) := by
  have hroom : Fits (view.limits.itemCount length) := by
    have hle := h.array
    rw [Limits.itemCount, if_pos (by omega)]
    exact .ok _
  exact hroom.bind fun _ => (Fits.readRepeated hread _ _).bind fun _ => .pure _

theorem entriesFrom_fits {limit : Nat} {label? : Preimage → Option String}
    {value : Word → Except ReadError Value} (h : ∀ slot, Fits (value slot)) (ps : Preimages)
    (entries : List (String × Value)) : Fits (entriesFrom limit label? value entries ps) := by
  induction ps generalizing entries with
  | nil => exact .ok _
  | cons p rest ih =>
    unfold entriesFrom
    split
    · exact .ok _
    · split
      · exact ih entries
      · exact (h p.hash).bind fun _ => ih _

end StorageView

namespace Declared

variable {types : Declared}

section Storage

variable {view : StorageView}
  {ofRef : StructRef → SlotCursor → Except ReadError (Value × SlotCursor)}

theorem fits_readStorageFields {fields : List (String × Ty)}
    (h : ∀ f ∈ fields, ∀ c, Fits (readStorageWith types view ofRef c f.2)) (c : SlotCursor) :
    Fits (readStorageFields types view ofRef c fields) := by
  induction fields generalizing c with
  | nil => exact .ok _
  | cons f rest ih =>
    obtain ⟨hfirst, hrest⟩ := List.forall_mem_cons.1 h
    exact (hfirst c).bind fun (_, c) => (ih hrest c).bind fun _ => .pure _

theorem fits_readStorageWith (h : view.limits.HaveRoom) (hrefs : ∀ r c, Fits (ofRef r c)) (t : Ty)
    (c : SlotCursor) : Fits (readStorageWith types view ofRef c t) := by
  induction t using Ty.byKind generalizing c with
  | value t hv =>
    rw [readStorageWith_scalar hv]
    exact (StorageView.word_fits _).bind fun _ => .pure _
  | bytes => exact (StorageView.byteString_fits h _).bind fun _ => .pure _
  | string => exact (StorageView.byteString_fits h _).bind fun _ => .pure _
  | struct name fields ih => exact (fits_readStorageFields ih _).bind fun _ => .pure _
  | structRef r => exact hrefs r c
  | staticArray element length ih =>
    exact (StorageView.items_fits h ih _ _).bind fun _ => .pure _
  | dynamicArray element ih =>
    exact (StorageView.word_fits _).bind fun _ =>
      (StorageView.items_fits h ih _ _).bind fun _ => .pure _
  | mapping key value _ ih =>
    exact (StorageView.entriesFrom_fits (fun slot => (ih ⟨slot, 0⟩).map Prod.fst) _ _).bind
      fun _ => .pure _

/-- Under limits that memory has room for, everything in storage fits. -/
theorem fits_readStorage (types : Declared) (h : view.limits.HaveRoom) (t : Ty) (c : SlotCursor) :
    Fits (types.readStorage view t c) :=
  unfoldWithin_holds
    (Q := fun read : SlotCursor → Except ReadError (Value × SlotCursor) => ∀ c, Fits (read c))
    (fun _ _ => .error ReadError.noConfusion) (fun _ hrefs t => fits_readStorageWith h hrefs t)
    unfoldLimit t c

end Storage

section Memory

variable {memory : Bytes} {limits : Limits} {ofRef : StructRef → Nat → Except ReadError Value}

theorem slice_fits (data : Bytes) (offset length : Nat) :
    Fits (Memory.slice data offset length) := by
  unfold Memory.slice
  split
  · exact .ok _
  · exact .error ReadError.noConfusion

theorem fits_readWords {α : Type} {read : Nat → Except ReadError α} (h : ∀ p, Fits (read p))
    (start index count : Nat) : Fits (readWords read start index count) := by
  induction count generalizing index with
  | zero => exact .ok _
  | succ count ih => exact (h _).bind fun _ => (ih (index + 1)).bind fun _ => .pure _

theorem fits_readMember {t : Ty} {read : Nat → Except ReadError Value} (h : ∀ p, Fits (read p))
    (offset : Nat) : Fits (types.readMember memory t read offset) := by
  unfold readMember
  split
  · exact .ok _
  · exact h _

theorem fits_readMemoryFields {fields : List (String × Ty)}
    (h : ∀ f ∈ fields, ∀ p, Fits (readMemoryWith types memory limits ofRef p f.2)) (offset : Nat) :
    Fits (readMemoryFields types memory limits ofRef offset fields) := by
  induction fields generalizing offset with
  | nil => exact .ok _
  | cons f rest ih =>
    obtain ⟨hfirst, hrest⟩ := List.forall_mem_cons.1 h
    rw [readMemoryFields]
    split
    · exact ih hrest offset
    · exact (fits_readMember hfirst offset).bind fun _ => (ih hrest _).bind fun _ => .pure _

theorem fits_readMemoryWith (hrefs : ∀ r p, Fits (ofRef r p)) (t : Ty) (pointer : Nat) :
    Fits (readMemoryWith types memory limits ofRef pointer t) := by
  induction t using Ty.byKind generalizing pointer with
  | value t hv =>
    rw [readMemoryWith_of_isValue hv]
    exact .ok _
  | bytes => exact (slice_fits _ _ _).bind fun _ => .pure _
  | string => exact (slice_fits _ _ _).bind fun _ => .pure _
  | struct name fields ih => exact (fits_readMemoryFields ih _).map _
  | structRef r => exact hrefs r pointer
  | staticArray element length ih | dynamicArray element ih =>
    exact (fits_readWords (fits_readMember ih) _ _ _).map _
  | mapping key value => exact .error ReadError.noConfusion

/-- Memory is read without making room. -/
theorem fits_readMemory (types : Declared) (memory : Bytes) (limits : Limits) (t : Ty)
    (pointer : Nat) : Fits (types.readMemory memory limits t pointer) :=
  unfoldWithin_holds
    (Q := fun read : Nat → Except ReadError Value => ∀ p, Fits (read p))
    (fun _ _ => .error ReadError.noConfusion) (fun _ hrefs t => fits_readMemoryWith hrefs t)
    unfoldLimit t pointer

end Memory

/--
**Under limits that memory has room for, everything fits but heads in the input.** Those of the
members of a struct may be no size together.
-/
theorem fits_readStack (types : Declared) {view : StackView} (t : Ty) (index : Nat)
    {location : Location} (hroom : ∀ storage ∈ view.storage, storage.limits.HaveRoom)
    (hlocation : location ≠ .calldata) : Fits (types.readStack view t index location) := by
  have hwords : Fits (view.words index (t.stackSlots location)) := by
    unfold StackView.words
    split
    · exact .ok _
    · exact .error ReadError.noConfusion
  refine hwords.bind fun words => ?_
  cases location with
  | calldata => exact absurd rfl hlocation
  | stack =>
    dsimp only
    split
    · exact .pure _
    · exact types.fits_readMemory _ _ _ _
  | memory => exact types.fits_readMemory _ _ _ _
  | storage =>
    dsimp only
    split
    · exact .error ReadError.noConfusion
    · rename_i storage hstorage
      exact (types.fits_readStorage (hroom storage hstorage) t _).bind fun _ => .pure _

end Declared

end Solscope
