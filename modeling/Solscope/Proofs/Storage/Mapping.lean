import Mathlib.Data.Finset.Card
import Mathlib.Data.List.Sort
import Solscope.Proofs.Storage.Encoding

/-!
# Reading mappings

The entries of a mapping are those whose hash inputs were recorded. If no two of these are shown
alike, neither their order matters nor how often they were recorded, as long as no mapping is read
inside the values.

* `Preimage.IsKeyOf`: which hash inputs are those of a mapping.
* `StorageView.exists_entriesFrom_eq`: the entries that a loop over hash inputs collects.
* `Declared.exists_readStorage_mapping`: **a mapping is read as exactly its recorded keys.**
* `Declared.readStorage_withPreimages`: reading a type that reaches no mapping needs no hash inputs.
* `Declared.readStorage_mapping`: both together, for any other record of the same keys.
-/

namespace Solscope

/-! ## Hash inputs of a mapping -/

/--
A hash input is that of an entry of the mapping at a slot. It ends in the slot, and before that it
has a word if the keys are values, and any bytes if they are byte strings.
-/
structure Preimage.IsKeyOf (key : Ty) (slot : Word) (e : Preimage) : Prop where
  isKey : key.isValue = true ∨ key = .bytes ∨ key = .string
  long : 32 ≤ e.data.length
  suffix : e.data.drop (e.data.length - 32) = slot.toBytes
  length : key.isValue = true → e.data.length = 64

namespace Declared

variable {types : Declared} {key : Ty} {slot : Word}

theorem exists_keyText?_iff {data : Bytes} :
    (∃ label, types.keyText? key data = some label) ↔
      (key.isValue = true ∨ key = .bytes ∨ key = .string) ∧
        (key.isValue = true → data.length = 32) := by
  cases key <;> simp [keyText?, Ty.isValue]

/-- The hash inputs of a mapping are those that have a key for it. -/
theorem exists_label?_iff {e : Preimage} :
    (∃ label, types.label? key slot e = some label) ↔ e.IsKeyOf key slot := by
  unfold label? Preimage.key?
  split
  · rename_i hsuffix
    rw [Option.bind_some, exists_keyText?_iff, List.length_take]
    constructor
    · rintro ⟨hkey, hlength⟩
      exact ⟨hkey, hsuffix.1, hsuffix.2, fun hvalue => by have := hlength hvalue; omega⟩
    · intro h
      exact ⟨h.isKey, fun hvalue => by have := h.length hvalue; omega⟩
  · rename_i hsuffix
    constructor
    · rintro ⟨_, ⟨⟩⟩
    · intro h
      exact absurd ⟨h.long, h.suffix⟩ hsuffix

/-- Hash inputs that do not end in the slot have no labels anyway. -/
theorem filterMap_label?_withSuffix (ps : Preimages) :
    (ps.withSuffix slot).filterMap (types.label? key slot) =
      ps.filterMap (types.label? key slot) := by
  rw [Preimages.withSuffix, List.filterMap_filter]
  congr 1
  funext p
  unfold label?
  cases p.key? slot <;> rfl

end Declared

/-! ## The loop over hash inputs -/

/-- Entries are those of a function on some labels, in the order of the labels. -/
structure IsGraph (g : String → Value) (labels : Finset String) (entries : List (String × Value)) :
    Prop where
  sorted : entries.Pairwise fun a b => a.1 < b.1
  mem_iff : ∀ label v, (label, v) ∈ entries ↔ label ∈ labels ∧ v = g label

namespace IsGraph

variable {g : String → Value} {labels : Finset String} {entries : List (String × Value)}

theorem nil : IsGraph g ∅ [] := ⟨.nil, by simp⟩

theorem insert (h : IsGraph g labels entries) (label : String) :
    IsGraph g (Insert.insert label labels) (Ordered.insert label (g label) entries) := by
  refine ⟨Ordered.pairwise_insert h.sorted _ _, fun other v => ?_⟩
  rw [Ordered.mem_insert h.sorted, h.mem_iff, Finset.mem_insert]
  constructor
  · rintro (heq | ⟨-, hlabel, hv⟩)
    · obtain ⟨rfl, rfl⟩ := Prod.mk.inj heq
      exact ⟨.inl rfl, rfl⟩
    · exact ⟨.inr hlabel, hv⟩
  · rintro ⟨hlabel, rfl⟩
    by_cases hother : other = label
    · exact .inl (hother ▸ rfl)
    · exact .inr ⟨hother, hlabel.resolve_left hother, rfl⟩

theorem length_eq (h : IsGraph g labels entries) : entries.length = labels.card := by
  have hnodup : (entries.map Prod.fst).Nodup :=
    List.pairwise_map.2 (h.sorted.imp fun hab => String.ne_of_lt hab)
  have hlabels : (entries.map Prod.fst).toFinset = labels := by
    ext label
    rw [List.mem_toFinset, List.mem_map]
    constructor
    · rintro ⟨⟨_, v⟩, he, rfl⟩
      exact ((h.mem_iff _ v).1 he).1
    · intro hlabel
      exact ⟨(label, g label), (h.mem_iff _ _).2 ⟨hlabel, rfl⟩, rfl⟩
  rw [← hlabels, List.toFinset_card_of_nodup hnodup, List.length_map]

end IsGraph

namespace StorageView

/-- The labels of some hash inputs. -/
def labels (label? : Preimage → Option String) (ps : Preimages) : Finset String :=
  (ps.filterMap label?).toFinset

theorem mem_labels {label? : Preimage → Option String} {ps : Preimages} {label : String} :
    label ∈ labels label? ps ↔ ∃ p ∈ ps, label? p = some label := by
  rw [labels, List.mem_toFinset, List.mem_filterMap]

variable {limit : Nat} {label? : Preimage → Option String} {value : Word → Except ReadError Value}
  {g : String → Value} {ps : Preimages}

/--
**All entries are collected**, if there is room for all labels and the value at every hash is that
of the label.
-/
theorem exists_entriesFrom_eq {entries : List (String × Value)} {found : Finset String}
    (h : IsGraph g found entries)
    (hvalue : ∀ p ∈ ps, ∀ label, label? p = some label → value p.hash = .ok (g label))
    (hlimit : (found ∪ labels label? ps).card ≤ limit) :
    ∃ entries', entriesFrom limit label? value entries ps = .ok entries' ∧
      IsGraph g (found ∪ labels label? ps) entries' := by
  induction ps generalizing entries found with
  | nil => exact ⟨entries, rfl, by simpa [labels] using h⟩
  | cons p rest ih =>
    have hrest : ∀ p ∈ rest, ∀ label, label? p = some label → value p.hash = .ok (g label) :=
      fun p hp => hvalue p (List.mem_cons_of_mem _ hp)
    rw [entriesFrom]
    split
    · rename_i hfull
      -- there is no room left, so every label has been found
      rw [h.length_eq] at hfull
      have hall := Finset.eq_of_subset_of_card_le Finset.subset_union_left (hlimit.trans hfull)
      exact ⟨entries, rfl, hall ▸ h⟩
    · cases hlabel : label? p with
      | none =>
        have hlabels : labels label? (p :: rest) = labels label? rest := by
          rw [labels, List.filterMap_cons_none hlabel, labels]
        rw [hlabels] at hlimit ⊢
        exact ih h hrest hlimit
      | some label =>
        have hlabels : found ∪ labels label? (p :: rest) =
            insert label found ∪ labels label? rest := by
          rw [labels, List.filterMap_cons_some hlabel, List.toFinset_cons, labels,
            Finset.union_insert, Finset.insert_union]
        rw [hlabels] at hlimit ⊢
        rw [hvalue p List.mem_cons_self label hlabel]
        exact ih (h.insert label) hrest hlimit

end StorageView

/-! ## Mappings -/

namespace Declared

variable {types : Declared} {view : StorageView} {key value : Ty} {slot : Word}

/-- The value of a type that starts in a slot. -/
def valueAt (types : Declared) (view : StorageView) (t : Ty) (slot : Word) :
    Except ReadError Value :=
  (types.readStorage view t ⟨slot, 0⟩).map Prod.fst

/--
Entries are those of the mapping at a slot as far as hash inputs are recorded: in the order of their
labels, for every hash input of the mapping the value at its hash, and nothing else.
-/
structure IsMapping (types : Declared) (view : StorageView) (key value : Ty) (slot : Word)
    (entries : List (String × Value)) : Prop where
  sorted : entries.Pairwise fun a b => a.1 < b.1
  complete : ∀ e ∈ view.preimages, e.IsKeyOf key slot → ∃ label v,
    types.label? key slot e = some label ∧ types.valueAt view value e.hash = .ok v ∧
      (label, v) ∈ entries
  sound : ∀ label v, (label, v) ∈ entries → ∃ e ∈ view.preimages, e.IsKeyOf key slot ∧
    types.label? key slot e = some label ∧ types.valueAt view value e.hash = .ok v

theorem IsMapping.mem_iff {entries : List (String × Value)}
    (h : IsMapping types view key value slot entries) {label : String} {v : Value} :
    (label, v) ∈ entries ↔ ∃ e ∈ view.preimages, types.label? key slot e = some label ∧
      types.valueAt view value e.hash = .ok v := by
  constructor
  · intro hmem
    obtain ⟨e, he, -, hlabel, hv⟩ := h.sound label v hmem
    exact ⟨e, he, hlabel, hv⟩
  · rintro ⟨e, he, hlabel, hv⟩
    obtain ⟨label', v', hlabel', hv', hmem⟩ :=
      h.complete e he (exists_label?_iff.1 ⟨label, hlabel⟩)
    obtain rfl := Option.some.inj (hlabel.symm.trans hlabel')
    obtain rfl := Except.ok.inj (hv.symm.trans hv')
    exact hmem

/-- Records of the same keys, with the same values at their hashes, are read alike. -/
theorem IsMapping.eq {view' : StorageView} {entries others : List (String × Value)}
    (h : IsMapping types view key value slot entries)
    (hothers : IsMapping types view' key value slot others)
    (hkeys : ∀ e : Preimage, e.IsKeyOf key slot → (e ∈ view'.preimages ↔ e ∈ view.preimages))
    (hvalues : ∀ hash, types.valueAt view' value hash = types.valueAt view value hash) :
    entries = others := by
  have : Std.Irrefl fun a b : String × Value => a.1 < b.1 := ⟨fun a => String.lt_irrefl a.1⟩
  have : Std.Antisymm fun a b : String × Value => a.1 < b.1 :=
    ⟨fun a b hab hba => absurd hba (String.lt_asymm hab)⟩
  refine h.sorted.eq_of_mem_iff hothers.sorted fun e => ?_
  rw [h.mem_iff, hothers.mem_iff]
  refine exists_congr fun p => ?_
  rw [hvalues]
  constructor
  · rintro ⟨hp, hlabel, hv⟩
    exact ⟨(hkeys p (exists_label?_iff.1 ⟨_, hlabel⟩)).2 hp, hlabel, hv⟩
  · rintro ⟨hp, hlabel, hv⟩
    exact ⟨(hkeys p (exists_label?_iff.1 ⟨_, hlabel⟩)).1 hp, hlabel, hv⟩

/-- If hash inputs of one label have one hash, there is one value for every label. -/
theorem exists_valueOf
    (hhashes : ∀ e ∈ view.preimages, ∀ e' ∈ view.preimages, ∀ label,
      types.label? key slot e = some label → types.label? key slot e' = some label →
      e.hash = e'.hash)
    (hvalues : ∀ e ∈ view.preimages, e.IsKeyOf key slot →
      ∃ v, types.valueAt view value e.hash = .ok v) :
    ∃ g : String → Value, ∀ e ∈ view.preimages, ∀ label, types.label? key slot e = some label →
      types.valueAt view value e.hash = .ok (g label) := by
  have hvalue : ∀ label, ∃ v, ∀ e ∈ view.preimages, types.label? key slot e = some label →
      types.valueAt view value e.hash = .ok v := by
    intro label
    by_cases hlabel : ∃ e ∈ view.preimages, types.label? key slot e = some label
    · obtain ⟨e, he, hlabel⟩ := hlabel
      obtain ⟨v, hv⟩ := hvalues e he (exists_label?_iff.1 ⟨label, hlabel⟩)
      refine ⟨v, fun e' he' hlabel' => ?_⟩
      rw [hhashes e' he' e he label hlabel' hlabel, hv]
    · exact ⟨default, fun e he h => absurd ⟨e, he, h⟩ hlabel⟩
  choose g hg using hvalue
  exact ⟨g, fun e he label => hg label e he⟩

theorem isMapping_of_isGraph {g : String → Value} {entries : List (String × Value)}
    (h : IsGraph g (StorageView.labels (types.label? key slot) view.preimages) entries)
    (hg : ∀ e ∈ view.preimages, ∀ label, types.label? key slot e = some label →
      types.valueAt view value e.hash = .ok (g label)) :
    IsMapping types view key value slot entries := by
  refine ⟨h.sorted, fun e he hkey => ?_, fun label v hentry => ?_⟩
  · obtain ⟨label, hlabel⟩ := exists_label?_iff.2 hkey
    have hfound := StorageView.mem_labels.2 ⟨e, he, hlabel⟩
    exact ⟨label, g label, hlabel, hg e he label hlabel, (h.mem_iff _ _).2 ⟨hfound, rfl⟩⟩
  · obtain ⟨hfound, rfl⟩ := (h.mem_iff label v).1 hentry
    obtain ⟨e, he, hlabel⟩ := StorageView.mem_labels.1 hfound
    exact ⟨e, he, exists_label?_iff.1 ⟨label, hlabel⟩, hlabel, hg e he label hlabel⟩

/-- A mapping takes a slot, and its entries are collected from the hash inputs that end in it. -/
theorem readStorage_mapping_eq (types : Declared) (view : StorageView) (key value : Ty)
    (slot : Word) : types.readStorage view (.mapping key value) ⟨slot, 0⟩ =
      (StorageView.entriesFrom view.limits.mapping (types.label? key slot)
        (types.valueAt view value) [] (view.preimages.withSuffix slot)).map
        fun entries => (.mapping entries, ⟨slot + 1, 0⟩) := by
  obtain ⟨ofRef, hread⟩ := types.exists_readStorage_eq view
  have hvalue : types.valueAt view value =
      fun hash => (readStorageWith types view ofRef ⟨hash, 0⟩ value).map Prod.fst := by
    funext hash
    rw [valueAt, hread]
  have hstart : (⟨slot, 0⟩ : SlotCursor).claimSlots (types.slots (.mapping key value)) =
      (⟨slot, 0⟩, ⟨slot + 1, 0⟩) := rfl
  rw [hread, readStorageWith, hstart, hvalue]
  dsimp only
  cases StorageView.entriesFrom view.limits.mapping (types.label? key slot)
    (fun hash => (readStorageWith types view ofRef ⟨hash, 0⟩ value).map Prod.fst) []
    (view.preimages.withSuffix slot) <;> rfl

/-- **A mapping is read as exactly its recorded keys.** -/
theorem exists_readStorage_mapping
    (hhashes : ∀ e ∈ view.preimages, ∀ e' ∈ view.preimages, ∀ label,
      types.label? key slot e = some label → types.label? key slot e' = some label →
      e.hash = e'.hash)
    (hvalues : ∀ e ∈ view.preimages, e.IsKeyOf key slot →
      ∃ v, types.valueAt view value e.hash = .ok v)
    (hlimit : (StorageView.labels (types.label? key slot) view.preimages).card ≤
      view.limits.mapping) :
    ∃ entries, types.readStorage view (.mapping key value) ⟨slot, 0⟩ =
        .ok (.mapping entries, ⟨slot + 1, 0⟩) ∧
      IsMapping types view key value slot entries := by
  obtain ⟨g, hg⟩ := exists_valueOf hhashes hvalues
  have hlabels : ∅ ∪ StorageView.labels (types.label? key slot) (view.preimages.withSuffix slot) =
      StorageView.labels (types.label? key slot) view.preimages := by
    rw [Finset.empty_union, StorageView.labels, filterMap_label?_withSuffix, StorageView.labels]
  have hvalue : ∀ e ∈ view.preimages.withSuffix slot, ∀ label,
      types.label? key slot e = some label → types.valueAt view value e.hash = .ok (g label) :=
    fun e he label hlabel => hg e (List.mem_of_mem_filter he) label hlabel
  obtain ⟨entries, hentries, hgraph⟩ :=
    StorageView.exists_entriesFrom_eq .nil hvalue (hlabels ▸ hlimit)
  rw [hlabels] at hgraph
  refine ⟨entries, ?_, isMapping_of_isGraph hgraph hg⟩
  rw [readStorage_mapping_eq, hentries]
  rfl

/-! ## Reading without hash inputs -/

/--
The types that values of a type have inside them: its parts, and those of the structs that
references in it stand for.
-/
inductive Reaches (types : Declared) : Ty → Ty → Prop
  | part {t s : Ty} (h : s ∈ t.parts) : Reaches types t s
  | follow {t s u : Ty} {r : StructRef} (href : .structRef r ∈ t.parts)
      (hfollow : types.follow? r = some u) (h : Reaches types u s) : Reaches types t s

/-- What values of a part have inside them, those of the whole have. -/
theorem Reaches.of_parts {types : Declared} {s t u : Ty} (h : types.Reaches s u)
    (hparts : ∀ p ∈ s.parts, p ∈ t.parts) : types.Reaches t u := by
  cases h with
  | part hu => exact .part (hparts _ hu)
  | follow href hfollow hu => exact .follow (hparts _ href) hfollow hu

/--
Two computations are related on a type if they are where references stand for nothing, and on every
type on whose references they are. Something may be known of all types that values have inside.
-/
theorem unfoldWithin_relates {types : Declared} {α β : Type} {Q : Ty → Prop} {R : α → β → Prop}
    {stuck : StructRef → α} {stuck' : StructRef → β} {go : (StructRef → α) → Ty → α}
    {go' : (StructRef → β) → Ty → β} (hstuck : ∀ r, R (stuck r) (stuck' r))
    (hgo : ∀ f f' t, (∀ s, types.Reaches t s → Q s) →
      (∀ r, .structRef r ∈ t.parts → R (f r) (f' r)) → R (go f t) (go' f' t))
    (budget : Nat) {t : Ty} (ht : ∀ s, types.Reaches t s → Q s) :
    R (types.unfoldWithin stuck go budget t) (types.unfoldWithin stuck' go' budget t) := by
  -- on the number of references that may still be followed
  induction budget generalizing t with
  | zero => exact hgo _ _ t ht fun r _ => hstuck r
  | succ budget ih =>
    refine hgo _ _ t ht fun r hr => ?_
    cases hfollow : types.follow? r with
    | none => exact hstuck r
    | some u => exact ih fun s hs => ht s (.follow hr hfollow hs)

end Declared

namespace StorageView

/-- Words in a row are read without hash inputs. -/
theorem words_withPreimages (view : StorageView) (d : Preimages) (slot : Word) (count : Nat) :
    words { view with preimages := d } slot count = view.words slot count := by
  induction count generalizing slot with
  | zero => rfl
  | succ count ih =>
    rw [words, words, ih]
    rfl

theorem byteString_withPreimages (view : StorageView) (d : Preimages) (slot : Word) :
    byteString { view with preimages := d } slot = view.byteString slot := by
  unfold byteString
  simp only [words_withPreimages]
  rfl

end StorageView

namespace Declared

variable {types : Declared} {view : StorageView}
  {ofRef ofRef' : StructRef → SlotCursor → Except ReadError (Value × SlotCursor)}

theorem readStorageFields_withPreimages {d : Preimages} {fields : List (String × Ty)}
    (h : ∀ f ∈ fields, ∀ c, readStorageWith types { view with preimages := d } ofRef' c f.2 =
      readStorageWith types view ofRef c f.2) (c : SlotCursor) :
    readStorageFields types { view with preimages := d } ofRef' c fields =
      readStorageFields types view ofRef c fields := by
  induction fields generalizing c with
  | nil => rfl
  | cons f rest ih =>
    obtain ⟨name, t⟩ := f
    have hfirst := h (name, t) List.mem_cons_self
    have hrest := ih fun f hf => h f (List.mem_cons_of_mem _ hf)
    simp only [readStorageFields, hfirst, hrest]

/-- Without mappings inside, only references could need hash inputs. -/
theorem readStorageWith_withPreimages (d : Preimages) {t : Ty}
    (hplain : ∀ s ∈ t.parts, s.isMapping = false)
    (hrefs : ∀ r, .structRef r ∈ t.parts → ofRef' r = ofRef r) (c : SlotCursor) :
    readStorageWith types { view with preimages := d } ofRef' c t =
      readStorageWith types view ofRef c t := by
  induction t using Ty.byKind generalizing c with
  | value t hv =>
    rw [readStorageWith_scalar hv, readStorageWith_scalar hv]
    rfl
  | bytes => simp only [readStorageWith, StorageView.byteString_withPreimages]
  | string => simp only [readStorageWith, StorageView.byteString_withPreimages]
  | struct name fields ih =>
    have hfields : ∀ f ∈ fields, ∀ c,
        readStorageWith types { view with preimages := d } ofRef' c f.2 =
          readStorageWith types view ofRef c f.2 := by
      intro f hf
      have hparts : ∀ s ∈ f.2.parts, s ∈ (Ty.struct name fields).parts :=
        fun s hs => List.mem_cons_of_mem _ (Ty.mem_partsOfFields.2 ⟨f, hf, hs⟩)
      exact ih f hf (fun s hs => hplain s (hparts s hs)) fun r hr => hrefs r (hparts _ hr)
    simp only [readStorageWith, readStorageFields_withPreimages hfields]
  | structRef r => simp only [readStorageWith, hrefs r (Ty.mem_parts_self _)]
  | staticArray element length ih =>
    have helement := ih (fun s hs => hplain s (List.mem_cons_of_mem _ hs))
      fun r hr => hrefs r (List.mem_cons_of_mem _ hr)
    simp only [readStorageWith, helement]
    rfl
  | dynamicArray element ih =>
    have helement := ih (fun s hs => hplain s (List.mem_cons_of_mem _ hs))
      fun r hr => hrefs r (List.mem_cons_of_mem _ hr)
    simp only [readStorageWith, helement]
    rfl
  | mapping key value => exact absurd (hplain _ (Ty.mem_parts_self _)) (by simp [Ty.isMapping])

/-- **Reading a type that reaches no mapping needs no hash inputs.** -/
theorem readStorage_withPreimages (d : Preimages) {t : Ty}
    (ht : ∀ s, types.Reaches t s → s.isMapping = false) :
    types.readStorage { view with preimages := d } t = types.readStorage view t := by
  unfold readStorage Declared.unfold
  refine unfoldWithin_relates (R := Eq) (fun _ => rfl) ?_ unfoldLimit ht
  intro ofRef ofRef' t hplain hrefs
  exact funext (readStorageWith_withPreimages d (fun s hs => hplain s (.part hs)) hrefs)

/-! ## Any record of the same keys -/

/--
**A mapping is read as exactly its recorded keys.** If the hash of every input is fixed by its data,
the value at every hash of the mapping can be read, different keys have different labels and the
limit leaves room for all labels, then the entries are those of the recorded keys and nothing else.
If moreover the values reach no mapping, every other record with the same hash inputs of the mapping
is read alike: in any other order, with repetitions, and with any other hash inputs between.
-/
theorem readStorage_mapping (types : Declared) (view : StorageView) (key value : Ty) (slot : Word)
    (hhashes : ∀ e ∈ view.preimages, ∀ e' ∈ view.preimages, e.data = e'.data → e.hash = e'.hash)
    (hvalues : ∀ e ∈ view.preimages, e.IsKeyOf key slot →
      ∃ v, types.valueAt view value e.hash = .ok v)
    (hlabels : ∀ e ∈ view.preimages, ∀ e' ∈ view.preimages, e.IsKeyOf key slot →
      e'.IsKeyOf key slot → types.label? key slot e = types.label? key slot e' → e.data = e'.data)
    (hlimit : (StorageView.labels (types.label? key slot) view.preimages).card ≤
      view.limits.mapping) :
    ∃ entries, types.readStorage view (.mapping key value) ⟨slot, 0⟩ =
        .ok (.mapping entries, ⟨slot + 1, 0⟩) ∧
      IsMapping types view key value slot entries ∧
      ((∀ s, types.Reaches value s → s.isMapping = false) → ∀ d : Preimages,
        (∀ e : Preimage, e.IsKeyOf key slot → (e ∈ d ↔ e ∈ view.preimages)) →
        types.readStorage { view with preimages := d } (.mapping key value) ⟨slot, 0⟩ =
          types.readStorage view (.mapping key value) ⟨slot, 0⟩) := by
  have hlabelled : ∀ e ∈ view.preimages, ∀ e' ∈ view.preimages, ∀ label,
      types.label? key slot e = some label → types.label? key slot e' = some label →
      e.hash = e'.hash := by
    intro e he e' he' label hlabel hlabel'
    have hdata := hlabels e he e' he' (exists_label?_iff.1 ⟨label, hlabel⟩)
      (exists_label?_iff.1 ⟨label, hlabel'⟩) (hlabel.trans hlabel'.symm)
    exact hhashes e he e' he' hdata
  obtain ⟨entries, hread, hentries⟩ := exists_readStorage_mapping hlabelled hvalues hlimit
  refine ⟨entries, hread, hentries, fun hplain d hd => ?_⟩
  have hsame : ∀ hash, types.valueAt { view with preimages := d } value hash =
      types.valueAt view value hash := by
    intro hash
    rw [valueAt, readStorage_withPreimages d hplain, valueAt]
  have hmem : ∀ e ∈ d, ∀ label, types.label? key slot e = some label → e ∈ view.preimages :=
    fun e he label hlabel => (hd e (exists_label?_iff.1 ⟨label, hlabel⟩)).1 he
  have hfewer : StorageView.labels (types.label? key slot) d ⊆
      StorageView.labels (types.label? key slot) view.preimages := by
    intro label hlabel
    obtain ⟨e, he, hlabel⟩ := StorageView.mem_labels.1 hlabel
    exact StorageView.mem_labels.2 ⟨e, hmem e he label hlabel, hlabel⟩
  have hother : ∃ others, types.readStorage { view with preimages := d } (.mapping key value)
      ⟨slot, 0⟩ = .ok (.mapping others, ⟨slot + 1, 0⟩) ∧
      IsMapping types { view with preimages := d } key value slot others := by
    refine exists_readStorage_mapping (fun e he e' he' label hlabel hlabel' => ?_)
      (fun e he hkey => ?_) ((Finset.card_le_card hfewer).trans hlimit)
    · exact hlabelled e (hmem e he label hlabel) e' (hmem e' he' label hlabel') label hlabel hlabel'
    · rw [hsame]
      exact hvalues e ((hd e hkey).1 he) hkey
  obtain ⟨others, hreadOther, hothers⟩ := hother
  rw [hread, hreadOther, hentries.eq hothers hd hsame]

/-- One of two keys is recorded twice, and another hash input between them. -/
theorem readStorage_mapping_repeated :
    let entry (key hash : Word) : Preimage := ⟨key.toBytes ++ (3 : Word).toBytes, hash⟩
    let other : Preimage := ⟨[0xAB], 7⟩
    let storage : Storage := fun _ slot => .ok (if slot = 200 then 8 else 9)
    let view (d : Preimages) : StorageView := ⟨storage, 0, d, ⟨10, 2, 10⟩⟩
    let d := [entry 2 200, other, entry 1 100, entry 2 200]
    let t : Ty := .mapping (.uint 32) (.uint 32)
    (∃ entries, ({} : Declared).readStorage (view d) t ⟨3, 0⟩ = .ok (.mapping entries, ⟨4, 0⟩) ∧
      IsMapping {} (view d) (.uint 32) (.uint 32) 3 entries ∧
      ("1", .uint 9) ∈ entries ∧ ("2", .uint 8) ∈ entries) ∧
    ({} : Declared).readStorage (view [entry 1 100, entry 2 200]) t ⟨3, 0⟩ =
      ({} : Declared).readStorage (view d) t ⟨3, 0⟩ := by
  intro entry other storage view d t
  have hmem : ∀ a b o e : Preimage, e ≠ o → (e ∈ [a, b] ↔ e ∈ [b, o, a, b]) := by
    intro a b o e he
    simp only [List.mem_cons, List.not_mem_nil, or_false, he, false_or]
    tauto
  have hhashes : ∀ e ∈ d, ∀ e' ∈ d, e.data = e'.data → e.hash = e'.hash := by decide +kernel
  have hread : ∀ e ∈ d, (({} : Declared).valueAt (view d) (.uint 32) e.hash).isOk = true := by
    decide +kernel
  have hvalues : ∀ e ∈ d, e.IsKeyOf (.uint 32) 3 →
      ∃ v, ({} : Declared).valueAt (view d) (.uint 32) e.hash = .ok v := by
    intro e he _
    have hok := hread e he
    cases hv : ({} : Declared).valueAt (view d) (.uint 32) e.hash with
    | ok v => exact ⟨v, rfl⟩
    | error _ => rw [hv] at hok; cases hok
  have hdifferent : ∀ e ∈ d, ∀ e' ∈ d, (({} : Declared).label? (.uint 32) 3 e).isSome = true →
      ({} : Declared).label? (.uint 32) 3 e = ({} : Declared).label? (.uint 32) 3 e' →
      e.data = e'.data := by decide +kernel
  have hlabels : ∀ e ∈ d, ∀ e' ∈ d, e.IsKeyOf (.uint 32) 3 → e'.IsKeyOf (.uint 32) 3 →
      ({} : Declared).label? (.uint 32) 3 e = ({} : Declared).label? (.uint 32) 3 e' →
      e.data = e'.data := by
    intro e he e' he' hkey _ heq
    exact hdifferent e he e' he' (Option.isSome_iff_exists.2 (exists_label?_iff.2 hkey)) heq
  obtain ⟨entries, hmapping, hentries, hsame⟩ := readStorage_mapping {} (view d) (.uint 32)
    (.uint 32) 3 hhashes hvalues hlabels (by decide +kernel)
  refine ⟨⟨entries, hmapping, hentries, ?_, ?_⟩, hsame ?_ _ ?_⟩
  · exact hentries.mem_iff.2 ⟨entry 1 100, by decide, by decide +kernel, rfl⟩
  · exact hentries.mem_iff.2 ⟨entry 2 200, by decide, by decide +kernel, rfl⟩
  · rintro s (⟨hs⟩ | ⟨hr, -, -⟩)
    · obtain rfl := List.mem_singleton.1 hs
      rfl
    · cases List.mem_singleton.1 hr
  · intro e hkey
    have hother : e ≠ other := by
      rintro rfl
      exact absurd hkey.long (by decide)
    exact hmem _ _ _ e hother

end Declared

end Solscope
