import Solscope.Proofs.Storage.Mapping
import Solscope.Proofs.Text.Utf8
import Solscope.Proofs.Value.Locations
import Solscope.Proofs.Value.Texts

/-!
# The keys of mappings

A hash input that ends in the slot of a mapping records one of its keys. Values and byte strings
have texts that tell them apart, so they have an entry each. Texts that are not UTF-8 may look the
same: replacement characters stand for the bytes that no character is made of. Keys that look the
same share an entry, which has the value of the one recorded last.

* `Declared.key?`: the key that data stands for, in its own encoding.
* `Declared.key?_of_word?`: the encoding of a value is a key as it is.
* `Declared.Clash`: different keys of the same text, and where they come from.
* `Declared.keyText?_eq_iff`: **keys have the same text if they are the same or clash**, only.
* `StorageView.exists_entriesFrom_last`: every entry has the value of its last hash input.
* `Declared.readStorage_mapping_keys`: **as many entries as keys are recorded, just if none clash.**
-/

namespace Solscope

/-! ## The key that a word means -/

namespace Ty

/-- The number in the bytes of a word that count is no larger than these allow. -/
theorem significant_lt {t : Ty} (ht : t.isValue = true) (hw : t.hasWidth = true) (w : Word) :
    t.significant w < 256 ^ t.storageBytes := by
  have hwidth := storageBytes_bounds ht hw
  have hlength : (t.ownBytes w).length = t.storageBytes := by
    have hword := w.length_toBytes
    unfold ownBytes
    split
    · rw [storageBytes] at hwidth ⊢
      rw [List.length_take]
      omega
    · rw [List.length_drop]
      omega
  rw [(significant_eq_iff ht hw).2 rfl, ← hlength]
  exact Bytes.toNat_lt _

/-- Every value that a number means has bits. -/
theorem exists_bits?_of_means {t : Ty} {r : Nat} {v : Value} (h : t.Means r v)
    (hr : r < 256 ^ t.storageBytes) : ∃ bits, t.bits? v = some bits := by
  cases h with
  | uint => exact ⟨_, if_pos hr⟩
  | @positive n h =>
    have hpos : (r : Int) < 2 ^ (8 * n - 1) := by exact_mod_cast h
    exact ⟨_, if_pos ⟨by omega, hpos⟩⟩
  | @negative n h =>
    -- half of the range is below zero
    rw [storageBytes, Bytes.pow_eq] at hr
    have hn : 1 ≤ n := by
      by_contra hzero
      obtain rfl : n = 0 := by omega
      omega
    have hpow : 2 ^ (8 * n) = 2 * 2 ^ (8 * n - 1) := by
      rw [← Nat.pow_succ']
      congr 1
      omega
    have hlow : (2 : Int) ^ (8 * n - 1) ≤ r := by exact_mod_cast h
    have hhigh : (r : Int) < 2 ^ (8 * n) := by exact_mod_cast hr
    have hdouble : (2 : Int) ^ (8 * n) = 2 * 2 ^ (8 * n - 1) := by exact_mod_cast hpow
    exact ⟨_, if_pos ⟨by omega, by omega⟩⟩
  | bool | address | contract => exact ⟨_, rfl⟩
  | fixedBytes hlength => exact ⟨_, if_pos hlength⟩
  | enum => exact ⟨_, if_pos ⟨hr, rfl⟩⟩

/-- Every word has a value of a value type, which has a word of its own. -/
theorem exists_word?_ofWord (types : Declared) {t : Ty} (ht : t.isValue = true)
    (hw : t.hasWidth = true) (w : Word) : ∃ w', t.word? (types.ofWord t w) = some w' := by
  have hr := significant_lt ht hw w
  obtain ⟨bits, hbits⟩ := exists_bits?_of_means (Declared.means_ofBits types ht hw hr) hr
  have hvalue : t.bits? (types.ofWord t w) = some bits := hbits
  rw [word?, hvalue]
  exact ⟨_, rfl⟩

/-- Whether a type can be that of the keys of a mapping. -/
def IsKey (key : Ty) : Prop :=
  key.isValue = true ∧ key.hasWidth = true ∨ key = .bytes ∨ key = .string

end Ty

/-! ## Keys and their texts -/

/-- Whether bytes are those of a text. -/
def Text.IsUtf8 (data : Bytes) : Prop := ∃ text, data = utf8 text

namespace Declared

variable {types : Declared} {key : Ty} {slot : Word} {data k k' : Bytes}

/--
The key that `data` stands for, if it can be one: byte strings are as they are, and a word is the
encoding of the value it means.
-/
def key? (types : Declared) (key : Ty) (data : Bytes) : Option Bytes :=
  match key with
  | .bytes | .string => some data
  | _ =>
    if data.length = 32 then
      (key.word? (types.ofWord key (Word.ofBytes data))).map Word.toBytes
    else none

/-- The key that a hash input records for the mapping at `slot`. -/
def recordedKey? (types : Declared) (key : Ty) (slot : Word) (e : Preimage) : Option Bytes :=
  (e.key? slot).bind (types.key? key)

/-- The keys that hash inputs record for the mapping at `slot`. -/
def recordedKeys (types : Declared) (key : Ty) (slot : Word) (d : Preimages) : Finset Bytes :=
  (d.filterMap (types.recordedKey? key slot)).toFinset

/-- Different keys that have the same text. -/
structure Clash (types : Declared) (key : Ty) (k k' : Bytes) : Prop where
  different : k ≠ k'
  text_eq : types.keyText? key k = types.keyText? key k'
  /-- They are not both UTF-8, or the names of an enumeration do not tell its members apart. -/
  cause : key = .string ∧ ¬ (Text.IsUtf8 k ∧ Text.IsUtf8 k') ∨
    ∃ name members, key = .enum name members ∧ ¬ Ty.NamesApart members

theorem key?_of_isValue (hv : key.isValue = true) (data : Bytes) : types.key? key data =
    if data.length = 32 then
      (key.word? (types.ofWord key (Word.ofBytes data))).map Word.toBytes
    else none := by
  cases key <;> first | rfl | cases hv

theorem keyText?_of_isValue (hv : key.isValue = true) (hlength : data.length = 32) :
    types.keyText? key data = some (types.ofWord key (Word.ofBytes data)).text := by
  cases key <;> first | exact if_pos ⟨rfl, hlength⟩ | cases hv

/-- A key of a value type is the encoding of a value, which every word for the key means. -/
theorem exists_value_of_key? (hv : key.isValue = true) (hw : key.hasWidth = true)
    (h : types.key? key data = some k) : ∃ v w, key.word? v = some w ∧ k = w.toBytes ∧
      types.keyText? key data = some v.text ∧ types.keyText? key k = some v.text := by
  rw [key?_of_isValue hv] at h
  split at h
  · rename_i hlength
    obtain ⟨w, hword, rfl⟩ := Option.map_eq_some_iff.1 h
    refine ⟨_, w, hword, rfl, keyText?_of_isValue hv hlength, ?_⟩
    rw [keyText?_of_isValue hv w.length_toBytes, Word.ofBytes_toBytes,
      types.ofWord_of_word? hw hword]
  · cases h

/-- The encoding of a value is a key as it is. -/
theorem key?_of_word? (hw : key.hasWidth = true) {v : Value} {w : Word}
    (h : key.word? v = some w) : types.key? key w.toBytes = some w.toBytes := by
  obtain ⟨bits, hbits, -⟩ := Option.map_eq_some_iff.1 h
  rw [key?_of_isValue (Ty.isValue_of_bits? hbits), if_pos w.length_toBytes, Word.ofBytes_toBytes,
    types.ofWord_of_word? hw h, h, Option.map_some]

theorem exists_key?_of_isValue (hv : key.isValue = true) (hw : key.hasWidth = true)
    (hlength : data.length = 32) : ∃ k, types.key? key data = some k := by
  obtain ⟨w, hword⟩ := Ty.exists_word?_ofWord types hv hw (Word.ofBytes data)
  exact ⟨w.toBytes, by rw [key?_of_isValue hv, if_pos hlength, hword, Option.map_some]⟩

/-- Data that can be a key has the text of the key it stands for. -/
theorem keyText?_eq_bind (hkey : key.IsKey) (data : Bytes) :
    types.keyText? key data = (types.key? key data).bind (types.keyText? key) := by
  rcases hkey with ⟨hv, hw⟩ | rfl | rfl
  · by_cases hlength : data.length = 32
    · obtain ⟨k, hk⟩ := exists_key?_of_isValue hv hw hlength
      obtain ⟨v, -, -, -, hdata, htext⟩ := exists_value_of_key? hv hw hk
      rw [hk, Option.bind_some, hdata, htext]
    · have hnone : ¬ ∃ label, types.keyText? key data = some label := fun h =>
        hlength ((exists_keyText?_iff.1 h).2 hv)
      rw [key?_of_isValue hv, if_neg hlength, Option.bind_none]
      exact Option.eq_none_iff_forall_ne_some.2 fun label hlabel => hnone ⟨label, hlabel⟩
  · rfl
  · rfl

/-- Keys of a value type that have the same text are the same, if members have names apart. -/
theorem eq_of_keyText?_of_isValue (hv : key.isValue = true) (hw : key.hasWidth = true)
    (hnames : ∀ name members, key = .enum name members → Ty.NamesApart members)
    {data data' : Bytes} (hk : types.key? key data = some k) (hk' : types.key? key data' = some k')
    (htext : types.keyText? key k = types.keyText? key k') : k = k' := by
  obtain ⟨v, w, hword, hencoded, -, hvalue⟩ := exists_value_of_key? hv hw hk
  obtain ⟨v', w', hword', hencoded', -, hvalue'⟩ := exists_value_of_key? hv hw hk'
  obtain ⟨bits, hbits, -⟩ := Option.map_eq_some_iff.1 hword
  obtain ⟨bits', hbits', -⟩ := Option.map_eq_some_iff.1 hword'
  have hsame : v = v' := by
    rw [hvalue, hvalue'] at htext
    exact Ty.text_inj hbits hbits' hnames (Option.some.inj htext)
  have hwords : w = w' := by
    rw [hsame, hword'] at hword
    exact (Option.some.inj hword).symm
  rw [hencoded, hencoded', hwords]

/-- Texts that are UTF-8 and look the same are the same. -/
theorem eq_of_ofUtf8 (hk : Text.IsUtf8 k) (hk' : Text.IsUtf8 k')
    (h : Text.ofUtf8 k = Text.ofUtf8 k') : k = k' := by
  obtain ⟨text, rfl⟩ := hk
  obtain ⟨text', rfl⟩ := hk'
  rw [Text.ofUtf8_utf8, Text.ofUtf8_utf8] at h
  rw [h]

/-- **Keys have the same text if they are the same or clash**, and only then. -/
theorem keyText?_eq_iff (hkey : key.IsKey) {data data' : Bytes}
    (hk : types.key? key data = some k) (hk' : types.key? key data' = some k') :
    types.keyText? key k = types.keyText? key k' ↔ k = k' ∨ types.Clash key k k' := by
  constructor
  · intro htext
    by_cases hsame : k = k'
    · exact .inl hsame
    refine .inr ⟨hsame, htext, ?_⟩
    rcases hkey with ⟨hv, hw⟩ | rfl | rfl
    · -- all values but the members of an enumeration have texts of their own
      refine .inr ?_
      by_contra hnone
      exact hsame (eq_of_keyText?_of_isValue hv hw (fun name members h => by
        by_contra hnot
        exact hnone ⟨name, members, h, hnot⟩) hk hk' htext)
    · exact absurd (Bytes.hex_inj (Option.some.inj htext)) hsame
    · exact .inl ⟨rfl, fun h => hsame (eq_of_ofUtf8 h.1 h.2 (Option.some.inj htext))⟩
  · rintro (rfl | hclash)
    · rfl
    · exact hclash.text_eq

end Declared

/-! ## The last hash input counts -/

namespace StorageView

variable {limit : Nat} {label? : Preimage → Option String} {value : Word → Except ReadError Value}
  {label : String} {p : Preimage} {ps : Preimages}

/-- The last hash input of a label. -/
def lastOf? (label? : Preimage → Option String) (label : String) (ps : Preimages) :
    Option Preimage :=
  ps.reverse.find? fun p => label? p = some label

theorem lastOf?_cons (p : Preimage) (rest : Preimages) : lastOf? label? label (p :: rest) =
    (lastOf? label? label rest).or (if label? p = some label then some p else none) := by
  rw [lastOf?, List.reverse_cons, List.find?_append, lastOf?]
  congr 1
  by_cases h : label? p = some label <;> simp [h]

theorem mem_of_lastOf? (h : lastOf? label? label ps = some p) :
    p ∈ ps ∧ label? p = some label :=
  ⟨List.mem_reverse.1 (List.mem_of_find?_eq_some h), by simpa using List.find?_some h⟩

theorem lastOf?_eq_none_iff : lastOf? label? label ps = none ↔ ∀ p ∈ ps, label? p ≠ some label := by
  simp [lastOf?]

/--
**Every entry has the value of the last hash input of its label**, if there is room for an entry for
every hash input that has a label, and all their values can be read.
-/
theorem exists_entriesFrom_last {entries : List (String × Value)}
    (hsorted : entries.Pairwise fun a b => a.1 < b.1)
    (hvalues : ∀ p ∈ ps, ∀ label, label? p = some label → ∃ v, value p.hash = .ok v)
    (hlimit : entries.length + (ps.filterMap label?).length ≤ limit) :
    ∃ out, entriesFrom limit label? value entries ps = .ok out ∧
      (out.Pairwise fun a b => a.1 < b.1) ∧
      ∀ label, Ordered.find? label out =
        ((lastOf? label? label ps).bind fun p => (value p.hash).toOption).or
          (Ordered.find? label entries) := by
  induction ps generalizing entries with
  | nil => exact ⟨entries, rfl, hsorted, fun label => rfl⟩
  | cons p rest ih =>
    obtain ⟨hfirst, hrest⟩ := List.forall_mem_cons.1 hvalues
    rw [entriesFrom]
    cases hlabel : label? p with
    | none =>
      rw [List.filterMap_cons_none hlabel] at hlimit
      split
      · -- there is no room left, so no hash input has a label
        have hnil : rest.filterMap label? = [] := List.eq_nil_of_length_eq_zero (by omega)
        have hnone : ∀ label, lastOf? label? label (p :: rest) = none := by
          refine fun label => lastOf?_eq_none_iff.2 (List.forall_mem_cons.2 ⟨?_, fun q hq => ?_⟩)
          · rw [hlabel]
            exact (Option.some_ne_none label).symm
          · rw [List.filterMap_eq_nil_iff.1 hnil q hq]
            exact (Option.some_ne_none label).symm
        exact ⟨entries, rfl, hsorted, fun label => by rw [hnone]; rfl⟩
      · obtain ⟨out, hout, hpairwise, hfind⟩ := ih hsorted hrest hlimit
        refine ⟨out, hout, hpairwise, fun label => ?_⟩
        rw [hfind, lastOf?_cons, hlabel, if_neg (by simp), Option.or_none]
    | some found =>
      rw [List.filterMap_cons_some hlabel, List.length_cons] at hlimit
      obtain ⟨v, hv⟩ := hfirst found hlabel
      rw [if_neg (by omega), hv]
      have hroom := Ordered.length_insert_le found v entries
      obtain ⟨out, hout, hpairwise, hfind⟩ :=
        ih (Ordered.pairwise_insert hsorted found v) hrest (by omega)
      refine ⟨out, hout, hpairwise, fun label => ?_⟩
      rw [hfind, lastOf?_cons, Ordered.find?_insert, hlabel]
      cases hlast : lastOf? label? label rest with
      | none =>
        by_cases hfound : found = label
        · simp [hfound, hv, Except.toOption]
        · simp [hfound]
      | some q =>
        -- a later hash input has the label as well
        obtain ⟨hq, hlabelled⟩ := mem_of_lastOf? hlast
        obtain ⟨w, hw⟩ := hrest q hq label hlabelled
        simp [hw, Except.toOption]

end StorageView

namespace Declared

variable {types : Declared} {view : StorageView} {key value : Ty} {slot : Word}

/--
Entries are in the order of their labels, and each has the value at the hash of the last hash input
of the mapping at a slot that has the label.
-/
structure ShowsLast (types : Declared) (view : StorageView) (key value : Ty) (slot : Word)
    (entries : List (String × Value)) : Prop where
  sorted : entries.Pairwise fun a b => a.1 < b.1
  find?_eq : ∀ label, Ordered.find? label entries =
    (StorageView.lastOf? (types.label? key slot) label view.preimages).bind fun e =>
      (types.valueAt view value e.hash).toOption

/-- A hash input has the text of the key that it records. -/
theorem label?_eq_bind (hkey : key.IsKey) (e : Preimage) : types.label? key slot e =
    (types.recordedKey? key slot e).bind (types.keyText? key) := by
  rw [label?, recordedKey?, Option.bind_assoc]
  congr 1
  funext data
  exact keyText?_eq_bind hkey data

theorem exists_keyText?_of_key? (hkey : key.IsKey) {data k : Bytes}
    (h : types.key? key data = some k) : ∃ label, types.keyText? key k = some label := by
  rcases hkey with ⟨hv, hw⟩ | rfl | rfl
  · obtain ⟨v, -, -, -, -, hk⟩ := exists_value_of_key? hv hw h
    exact ⟨_, hk⟩
  · exact ⟨_, rfl⟩
  · exact ⟨_, rfl⟩

theorem mem_recordedKeys {k : Bytes} {d : Preimages} :
    k ∈ types.recordedKeys key slot d ↔ ∃ e ∈ d, types.recordedKey? key slot e = some k := by
  rw [recordedKeys, List.mem_toFinset, List.mem_filterMap]

/-- The labels of hash inputs are the texts of the keys that they record. -/
theorem labels_eq_image (hkey : key.IsKey) (d : Preimages) :
    StorageView.labels (types.label? key slot) d =
      (types.recordedKeys key slot d).image fun k => (types.keyText? key k).getD "" := by
  ext label
  simp only [StorageView.mem_labels, Finset.mem_image, mem_recordedKeys]
  constructor
  · rintro ⟨e, he, hlabel⟩
    rw [label?_eq_bind hkey] at hlabel
    obtain ⟨k, hk, htext⟩ := Option.bind_eq_some_iff.1 hlabel
    exact ⟨k, ⟨e, he, hk⟩, by rw [htext, Option.getD_some]⟩
  · rintro ⟨k, ⟨e, he, hk⟩, rfl⟩
    obtain ⟨data, -, hdata⟩ := Option.bind_eq_some_iff.1 hk
    obtain ⟨label, htext⟩ := exists_keyText?_of_key? hkey hdata
    refine ⟨e, he, ?_⟩
    rw [label?_eq_bind hkey, hk, Option.bind_some, htext, Option.getD_some]

/-- Hash inputs that do not end in the slot are the last ones of no label. -/
theorem lastOf?_withSuffix (label : String) (d : Preimages) :
    StorageView.lastOf? (types.label? key slot) label (d.withSuffix slot) =
      StorageView.lastOf? (types.label? key slot) label d := by
  rw [StorageView.lastOf?, StorageView.lastOf?, Preimages.withSuffix, ← List.filter_reverse,
    List.find?_filter]
  congr 1
  funext e
  unfold label?
  cases e.key? slot <;> simp

/-- There is one entry for every label. -/
theorem ShowsLast.length_eq {entries : List (String × Value)}
    (h : types.ShowsLast view key value slot entries)
    (hvalues : ∀ e ∈ view.preimages, e.IsKeyOf key slot →
      ∃ v, types.valueAt view value e.hash = .ok v) :
    entries.length = (StorageView.labels (types.label? key slot) view.preimages).card := by
  have hnodup : (entries.map Prod.fst).Nodup :=
    List.pairwise_map.2 (h.sorted.imp fun hab => String.ne_of_lt hab)
  have hlabels : (entries.map Prod.fst).toFinset =
      StorageView.labels (types.label? key slot) view.preimages := by
    ext label
    have hnone : label ∉ entries.map Prod.fst ↔ Ordered.find? label entries = none := by
      rw [Ordered.find?, Option.map_eq_none_iff, List.find?_eq_none, List.mem_map]
      constructor
      · exact fun hnot e he hkey => hnot ⟨e, he, of_decide_eq_true hkey⟩
      · rintro hall ⟨e, he, hkey⟩
        exact hall e he (decide_eq_true hkey)
    -- a label has no entry just if no hash input has it
    rw [← not_iff_not, List.mem_toFinset, hnone, h.find?_eq, StorageView.mem_labels]
    cases hlast : StorageView.lastOf? (types.label? key slot) label view.preimages with
    | none =>
      have hnot := StorageView.lastOf?_eq_none_iff.1 hlast
      refine iff_of_true rfl ?_
      rintro ⟨e, he, hlabel⟩
      exact hnot e he hlabel
    | some e =>
      obtain ⟨he, hlabel⟩ := StorageView.mem_of_lastOf? hlast
      obtain ⟨v, hv⟩ := hvalues e he (exists_label?_iff.1 ⟨label, hlabel⟩)
      rw [Option.bind_some, hv]
      exact iff_of_false (Option.some_ne_none v) fun hnot => hnot ⟨e, he, hlabel⟩
  rw [← hlabels, List.toFinset_card_of_nodup hnodup, List.length_map]

/-- **Hash inputs have the same label if they record the same key or keys that clash**, only. -/
theorem label?_eq_iff (hkey : key.IsKey) {e e' : Preimage} {k k' : Bytes}
    (hk : types.recordedKey? key slot e = some k) (hk' : types.recordedKey? key slot e' = some k') :
    types.label? key slot e = types.label? key slot e' ↔ k = k' ∨ types.Clash key k k' := by
  obtain ⟨data, -, hdata⟩ := Option.bind_eq_some_iff.1 hk
  obtain ⟨data', -, hdata'⟩ := Option.bind_eq_some_iff.1 hk'
  rw [label?_eq_bind hkey, label?_eq_bind hkey, hk, hk', Option.bind_some, Option.bind_some]
  exact keyText?_eq_iff hkey hdata hdata'

/-- Texts tell recorded keys apart just if none of these clash. -/
theorem injOn_text_iff (hkey : key.IsKey) (d : Preimages) :
    Set.InjOn (fun k => (types.keyText? key k).getD "") (types.recordedKeys key slot d) ↔
      ∀ k ∈ types.recordedKeys key slot d, ∀ k' ∈ types.recordedKeys key slot d,
        ¬ types.Clash key k k' := by
  constructor
  · intro hinj k hk k' hk' hclash
    exact hclash.different (hinj hk hk' (congrArg (fun text => Option.getD text "") hclash.text_eq))
  · intro hnone k hk k' hk' htext
    obtain ⟨e, -, he⟩ := mem_recordedKeys.1 hk
    obtain ⟨e', -, he'⟩ := mem_recordedKeys.1 hk'
    obtain ⟨data, -, hdata⟩ := Option.bind_eq_some_iff.1 he
    obtain ⟨data', -, hdata'⟩ := Option.bind_eq_some_iff.1 he'
    obtain ⟨label, hlabel⟩ := exists_keyText?_of_key? hkey hdata
    obtain ⟨label', hlabel'⟩ := exists_keyText?_of_key? hkey hdata'
    have hsame : types.keyText? key k = types.keyText? key k' := by
      dsimp only at htext
      rw [hlabel, hlabel', Option.getD_some, Option.getD_some] at htext
      rw [hlabel, hlabel', htext]
    exact ((keyText?_eq_iff hkey hdata hdata').1 hsame).resolve_right (hnone k hk k' hk')

theorem exists_showsLast (hkey : key.IsKey)
    (hvalues : ∀ e ∈ view.preimages, e.IsKeyOf key slot →
      ∃ v, types.valueAt view value e.hash = .ok v)
    (hlimit : (view.preimages.filterMap (types.recordedKey? key slot)).length ≤
      view.limits.mapping) :
    ∃ entries, StorageView.entriesFrom view.limits.mapping (types.label? key slot)
        (types.valueAt view value) [] (view.preimages.withSuffix slot) = .ok entries ∧
      types.ShowsLast view key value slot entries := by
  have hlabels : view.preimages.filterMap (types.label? key slot) =
      (view.preimages.filterMap (types.recordedKey? key slot)).filterMap (types.keyText? key) := by
    rw [List.filterMap_filterMap]
    congr 1
    funext e
    exact label?_eq_bind hkey e
  have hroom : ([] : List (String × Value)).length +
      ((view.preimages.withSuffix slot).filterMap (types.label? key slot)).length ≤
        view.limits.mapping := by
    rw [filterMap_label?_withSuffix, hlabels, List.length_nil, Nat.zero_add]
    exact (List.length_filterMap_le _ _).trans hlimit
  have hreadable : ∀ e ∈ view.preimages.withSuffix slot, ∀ label,
      types.label? key slot e = some label → ∃ v, types.valueAt view value e.hash = .ok v :=
    fun e he label hlabel =>
      hvalues e (List.mem_of_mem_filter he) (exists_label?_iff.1 ⟨label, hlabel⟩)
  obtain ⟨entries, hentries, hsorted, hfind⟩ :=
    StorageView.exists_entriesFrom_last .nil hreadable hroom
  refine ⟨entries, hentries, hsorted, fun label => ?_⟩
  rw [hfind, lastOf?_withSuffix]
  exact Option.or_none

/--
**A mapping has as many entries as keys are recorded, just if none of them clash.** Let keys be
values or byte strings, let the limit leave room for every hash input that records a key, and let
the values at their hashes be readable. Then the mapping is read. Every label has the value of its
last hash input; two hash inputs have the same label just if they record the same key or keys that
clash; and if any do, fewer entries are read than keys are recorded.
-/
theorem readStorage_mapping_keys (types : Declared) {view : StorageView} {key value : Ty}
    (hkey : key.IsKey) (slot : Word)
    (hvalues : ∀ e ∈ view.preimages, e.IsKeyOf key slot →
      ∃ v, types.valueAt view value e.hash = .ok v)
    (hlimit : (view.preimages.filterMap (types.recordedKey? key slot)).length ≤
      view.limits.mapping) :
    ∃ entries, types.readStorage view (.mapping key value) ⟨slot, 0⟩ =
        .ok (.mapping entries, ⟨slot + 1, 0⟩) ∧
      types.ShowsLast view key value slot entries ∧
      (∀ e e' k k', types.recordedKey? key slot e = some k →
        types.recordedKey? key slot e' = some k' →
        (types.label? key slot e = types.label? key slot e' ↔ k = k' ∨ types.Clash key k k')) ∧
      entries.length ≤ (types.recordedKeys key slot view.preimages).card ∧
      (entries.length = (types.recordedKeys key slot view.preimages).card ↔
        ∀ k ∈ types.recordedKeys key slot view.preimages,
          ∀ k' ∈ types.recordedKeys key slot view.preimages, ¬ types.Clash key k k') := by
  obtain ⟨entries, hentries, hlast⟩ := exists_showsLast hkey hvalues hlimit
  refine ⟨entries, by rw [readStorage_mapping_eq, hentries]; rfl, hlast, ?_, ?_, ?_⟩
  · exact fun e e' k k' hk hk' => label?_eq_iff hkey hk hk'
  · rw [hlast.length_eq hvalues, labels_eq_image hkey]
    exact Finset.card_image_le
  · rw [hlast.length_eq hvalues, labels_eq_image hkey, Finset.card_image_iff]
    exact injOn_text_iff hkey _

/-- Two single bytes look the same, and the value of the first one recorded is lost. -/
theorem readStorage_mapping_keys_replacement :
    let entry (b : UInt8) (hash : Word) : Preimage := ⟨b :: (0 : Word).toBytes, hash⟩
    let view : StorageView := ⟨fun _ slot => .ok slot, 0, [entry 0x80 7, entry 0x81 8], {}⟩
    ({} : Declared).recordedKeys .string 0 view.preimages = {[0x80], [0x81]} ∧
      ({} : Declared).Clash .string [0x80] [0x81] ∧
      ∃ entries, ({} : Declared).readStorage view (.mapping .string (.uint 32)) ⟨0, 0⟩ =
          .ok (.mapping entries, ⟨1, 0⟩) ∧
        entries.length = 1 ∧ Ordered.find? (Text.ofUtf8 [0x80]) entries = some (.uint 8) := by
  intro entry view
  have hrecorded : ({} : Declared).recordedKeys .string 0 view.preimages = {[0x80], [0x81]} := by
    decide +kernel
  have hclash : ({} : Declared).Clash .string [0x80] [0x81] := by
    refine ⟨by decide, by decide, .inl ⟨rfl, ?_⟩⟩
    rintro ⟨⟨text, htext⟩, -⟩
    -- a replacement character has other bytes
    have hread : Text.utf8 (Text.ofUtf8 [0x80]) = [0x80] := by
      rw [htext, Text.ofUtf8_utf8]
    exact absurd hread (by decide)
  have hvalues : ∀ e ∈ view.preimages, e.IsKeyOf .string 0 →
      ∃ v, ({} : Declared).valueAt view (.uint 32) e.hash = .ok v := fun e _ _ => ⟨_, rfl⟩
  obtain ⟨entries, hread, hlast, -⟩ :=
    readStorage_mapping_keys {} (.inr (.inr rfl)) 0 hvalues (by decide +kernel)
  have hcount :
      (StorageView.labels (({} : Declared).label? .string 0) view.preimages).card = 1 := by
    decide +kernel
  refine ⟨hrecorded, hclash, entries, hread, ?_, ?_⟩
  · rw [hlast.length_eq hvalues, hcount]
  · rw [hlast.find?_eq]
    rfl

end Declared

end Solscope
