import Solscope.Proofs.Storage.Encoding

/-!
# Storage that cannot be read

Where storage cannot be read, reading a value fails with the reason that the storage gives. Every
value that can be read without is what it would be if all storage could be read.

* `AgreesUnless`: readings that give the same, unless the first fails for a reason of some kind.
* `Declared.readStorage_agrees`: **a failure only changes the readings that come across it.**
-/

namespace Solscope

/-- A reading gives what another one gives, unless storage fails it for one of some reasons. -/
def AgreesUnless {α : Type} (F : StorageError → Prop) (x y : Except ReadError α) : Prop :=
  x = y ∨ ∃ e, F e ∧ x = .error (.storage e)

/-- A storage is another one, except that reading it may fail for some reasons. -/
def FailsOnly (F : StorageError → Prop) (storage storage' : Storage) : Prop :=
  ∀ a slot, storage a slot = storage' a slot ∨
    ∃ reason, F ⟨a, slot, reason⟩ ∧ storage a slot = .error reason

variable {α β σ : Type} {F : StorageError → Prop}

namespace AgreesUnless

variable {x y : Except ReadError α} {f g : α → Except ReadError β}

theorem refl (x : Except ReadError α) : AgreesUnless F x x := .inl rfl

theorem bind (h : AgreesUnless F x y) (hf : ∀ a, AgreesUnless F (f a) (g a)) :
    AgreesUnless F (x >>= f) (y >>= g) := by
  rcases h with rfl | ⟨e, he, rfl⟩
  · cases x with
    | error e => exact .inl rfl
    | ok a => exact hf a
  · exact .inr ⟨e, he, rfl⟩

theorem map (h : AgreesUnless F x y) (f : α → β) : AgreesUnless F (x.map f) (y.map f) := by
  rcases h with rfl | ⟨e, he, rfl⟩
  · exact .refl _
  · exact .inr ⟨e, he, rfl⟩

theorem mapM {xs : List α} (h : ∀ a ∈ xs, AgreesUnless F (f a) (g a)) :
    AgreesUnless F (xs.mapM f) (xs.mapM g) := by
  induction xs with
  | nil => exact .refl _
  | cons a rest ih =>
    obtain ⟨hfirst, hrest⟩ := List.forall_mem_cons.1 h
    rw [List.mapM_cons, List.mapM_cons]
    exact hfirst.bind fun _ => (ih hrest).bind fun _ => .refl _

theorem readRepeated {read read' : σ → Except ReadError (α × σ)}
    (h : ∀ s, AgreesUnless F (read s) (read' s)) (count : Nat) (s : σ) :
    AgreesUnless F (Solscope.readRepeated read count s) (Solscope.readRepeated read' count s) := by
  induction count generalizing s with
  | zero => exact .refl _
  | succ count ih => exact (h s).bind fun (_, s) => (ih s).bind fun _ => .refl _

end AgreesUnless

/-! ## Words and byte strings -/

namespace StorageView

variable {view : StorageView} {storage' : Storage}

theorem word_agrees (h : FailsOnly F view.storage storage') (slot : Word) :
    AgreesUnless F (view.word slot) (word { view with storage := storage' } slot) := by
  unfold word
  rcases h view.address slot with heq | ⟨reason, hreason, herror⟩
  · rw [heq]
    exact .refl _
  · rw [herror]
    exact .inr ⟨_, hreason, rfl⟩

theorem words_agrees (h : FailsOnly F view.storage storage') (slot : Word) (count : Nat) :
    AgreesUnless F (view.words slot count)
      (words { view with storage := storage' } slot count) := by
  induction count generalizing slot with
  | zero => exact .refl _
  | succ count ih => exact (word_agrees h slot).bind fun _ => (ih (slot + 1)).bind fun _ => .refl _

theorem byteString_agrees (h : FailsOnly F view.storage storage') (slot : Word) :
    AgreesUnless F (view.byteString slot) (byteString { view with storage := storage' } slot) := by
  refine (word_agrees h slot).bind fun header => ?_
  -- a long byte string is read from slots of its own
  split
  · exact .refl _
  · exact (AgreesUnless.refl _).bind fun _ => (words_agrees h _ _).bind fun _ => .refl _

theorem items_agrees {read read' : σ → Except ReadError (α × σ)}
    (h : ∀ s, AgreesUnless F (read s) (read' s)) (length : Nat) (s : σ) :
    AgreesUnless F (view.items read length s)
      (items { view with storage := storage' } read' length s) :=
  (AgreesUnless.refl _).bind fun _ => (AgreesUnless.readRepeated h _ _).bind fun _ => .refl _

theorem entriesFrom_agrees {limit : Nat} {label? : Preimage → Option String}
    {value value' : Word → Except ReadError Value}
    (h : ∀ slot, AgreesUnless F (value slot) (value' slot)) (ps : Preimages)
    (entries : List (String × Value)) :
    AgreesUnless F (entriesFrom limit label? value entries ps)
      (entriesFrom limit label? value' entries ps) := by
  induction ps generalizing entries with
  | nil => exact .refl _
  | cons p rest ih =>
    unfold entriesFrom
    split
    · exact .refl _
    · split
      · exact ih entries
      · exact (h p.hash).bind fun _ => ih _

end StorageView

/-! ## Values -/

namespace Declared

variable {types : Declared} {view : StorageView} {storage' : Storage}
  {ofRef ofRef' : StructRef → SlotCursor → Except ReadError (Value × SlotCursor)}

theorem readStorageFields_agrees {fields : List (String × Ty)}
    (h : ∀ f ∈ fields, ∀ c, AgreesUnless F (readStorageWith types view ofRef c f.2)
      (readStorageWith types { view with storage := storage' } ofRef' c f.2)) (c : SlotCursor) :
    AgreesUnless F (readStorageFields types view ofRef c fields)
      (readStorageFields types { view with storage := storage' } ofRef' c fields) := by
  induction fields generalizing c with
  | nil => exact .refl _
  | cons f rest ih =>
    obtain ⟨hfirst, hrest⟩ := List.forall_mem_cons.1 h
    exact (hfirst c).bind fun (_, c) => (ih hrest c).bind fun _ => .refl _

theorem readStorageWith_agrees (h : FailsOnly F view.storage storage')
    (hrefs : ∀ r c, AgreesUnless F (ofRef r c) (ofRef' r c)) (t : Ty) (c : SlotCursor) :
    AgreesUnless F (readStorageWith types view ofRef c t)
      (readStorageWith types { view with storage := storage' } ofRef' c t) := by
  induction t using Ty.byKind generalizing c with
  | value t hv =>
    rw [readStorageWith_scalar hv, readStorageWith_scalar hv]
    exact (StorageView.word_agrees h _).bind fun _ => .refl _
  | bytes => exact (StorageView.byteString_agrees h _).bind fun _ => .refl _
  | string => exact (StorageView.byteString_agrees h _).bind fun _ => .refl _
  | struct name fields ih => exact (readStorageFields_agrees ih _).bind fun _ => .refl _
  | structRef r => exact hrefs r c
  | staticArray element length ih => exact (StorageView.items_agrees ih _ _).bind fun _ => .refl _
  | dynamicArray element ih =>
    refine (StorageView.word_agrees h _).bind fun header => ?_
    exact (StorageView.items_agrees ih _ _).bind fun _ => .refl _
  | mapping key value _ ih =>
    exact (StorageView.entriesFrom_agrees (fun slot => (ih ⟨slot, 0⟩).map Prod.fst) _ _).bind
      fun _ => .refl _

/-- **A failure only changes the readings that come across it.** -/
theorem readStorage_agrees (h : FailsOnly F view.storage storage') (t : Ty) (c : SlotCursor) :
    AgreesUnless F (types.readStorage view t c)
      (types.readStorage { view with storage := storage' } t c) := by
  suffices ∀ budget t c, AgreesUnless F
      (types.unfoldWithin (fun r _ => .error (.unresolved r.name))
        (fun ofRef t c => readStorageWith types view ofRef c t) budget t c)
      (types.unfoldWithin (fun r _ => .error (.unresolved r.name))
        (fun ofRef t c => readStorageWith types { view with storage := storage' } ofRef c t) budget
        t c) from this _ t c
  -- on the number of references that may still be followed
  intro budget
  induction budget with
  | zero => exact fun t c => readStorageWith_agrees h (fun _ _ => .refl _) t c
  | succ budget ih =>
    intro t c
    refine readStorageWith_agrees h (fun r c => ?_) t c
    cases hfollow : types.follow? r with
    | none => exact .refl _
    | some u => exact ih u c

end Declared

end Solscope
