import Solscope.Proofs.Ty.References

/-!
# Names of structs

A struct inside itself is found again by its full name, so that name has to come back unchanged when
it is taken out of a descriptor: it has no blanks and no brackets, and it is no word about data
locations, which would be dropped.

* `Declared.Registered`: how declared types are put together.
* `Declared.IsKept`: every declaration is kept under its name, in order.
* `Descriptor.normalize_struct`: a struct descriptor with such a name is normalized already.
* `Declared.exists_find?_of_isNamed`: what descriptors name is found by its full name, which is no
  word about locations.
* `Declared.resolveNested_struct`: **the full name of a struct names that struct.**
-/

namespace Solscope

namespace Text

/-- No word has a blank. -/
theorem isBlank_of_mem_words {cs word : List Char} (h : word ∈ words cs) {c : Char} (hc : c ∈ word) :
    isBlank c = false := by
  have hfrom : ∀ (cs start : List Char), (∀ c ∈ start, isBlank c = false) →
      ∀ word ∈ wordsFrom start cs, ∀ c ∈ word, isBlank c = false := by
    intro cs
    induction cs with
    | nil =>
      intro start hstart word hword c hc
      unfold wordsFrom at hword
      split at hword
      · cases hword
      · obtain rfl := List.mem_singleton.1 hword
        exact hstart c (List.mem_reverse.1 hc)
    | cons d cs ih =>
      intro start hstart word hword c hc
      unfold wordsFrom at hword
      split at hword
      · -- a blank ends the word before it
        split at hword
        · exact ih [] (by simp) word hword c hc
        · rcases List.mem_cons.1 hword with rfl | hword
          · exact hstart c (List.mem_reverse.1 hc)
          · exact ih [] (by simp) word hword c hc
      · rename_i hd
        exact ih (d :: start) (List.forall_mem_cons.2 ⟨by simpa using hd, hstart⟩) word hword c hc
  exact hfrom cs [] (by simp) word h c hc

/-- A text without blanks is one word. -/
theorem words_eq_singleton {cs : List Char} (hne : cs ≠ []) (h : ∀ c ∈ cs, isBlank c = false) :
    words cs = [cs] := by
  have hfrom : ∀ (cs start : List Char), (∀ c ∈ cs, isBlank c = false) → start ++ cs ≠ [] →
      wordsFrom start cs = [start.reverse ++ cs] := by
    intro cs
    induction cs with
    | nil =>
      intro start _ hne
      have hstart : start.isEmpty = false := by simpa using hne
      simp [wordsFrom, hstart]
    | cons c cs ih =>
      intro start h _
      obtain ⟨hc, hcs⟩ := List.forall_mem_cons.1 h
      rw [wordsFrom, hc, ih (c :: start) hcs (by simp)]
      simp
  exact hfrom cs [] h hne

/-- A letter, digit, underscore or dollar sign, or the dot between two names. -/
def isNameChar (c : Char) : Bool := c.isAlphanum || c = '_' || c = '$' || c = '.'

/-- A name with dots between its parts. -/
def IsDottedName (name : String) : Prop := name ≠ "" ∧ ∀ c ∈ name.toList, isNameChar c = true

instance (name : String) : Decidable (IsDottedName name) :=
  decidable_of_iff (name ≠ "" ∧ name.toList.all isNameChar = true)
    (and_congr_right fun _ => List.all_eq_true)

/-- Names have neither blanks nor brackets. -/
theorem isNameChar_spec {c : Char} (h : isNameChar c = true) :
    isBlank c = false ∧ c ≠ '[' ∧ c ≠ ']' ∧ c ≠ ')' := by
  have hrange : (48 ≤ c.toNat ∧ c.toNat ≤ 57) ∨ (65 ≤ c.toNat ∧ c.toNat ≤ 90) ∨
      (97 ≤ c.toNat ∧ c.toNat ≤ 122) ∨ c.toNat = 95 ∨ c.toNat = 36 ∨ c.toNat = 46 := by
    delta isNameChar Char.isAlphanum Char.isAlpha Char.isUpper Char.isLower Char.isDigit at h
    simp only [Bool.or_eq_true, Bool.and_eq_true, decide_eq_true_eq, ge_iff_le,
      UInt32.le_iff_toNat_le] at h
    change (((((65 ≤ c.toNat ∧ c.toNat ≤ 90) ∨ (97 ≤ c.toNat ∧ c.toNat ≤ 122)) ∨
      (48 ≤ c.toNat ∧ c.toNat ≤ 57)) ∨ c = '_') ∨ c = '$') ∨ c = '.' at h
    rcases h with ((h | rfl) | rfl) | rfl
    · omega
    all_goals decide
  refine ⟨?_, ?_, ?_, ?_⟩
  · simp only [isBlank, Bool.or_eq_false_iff, Bool.and_eq_false_iff, decide_eq_false_iff_not]
    omega
  all_goals
    rintro rfl
    revert hrange
    decide

end Text

/-! ## Struct descriptors -/

namespace Descriptor

/-- What comes after the last blank of a text. -/
def lastWord (cs : List Char) : List Char := (cs.reverse.takeWhile (· ≠ ' ')).reverse

theorem lastWord_append (out : List Char) {cs : List Char} (h : ' ' ∉ cs) :
    lastWord (out ++ cs) = lastWord out ++ cs := by
  have hall : ∀ c ∈ cs.reverse, (decide (c ≠ ' ')) = true := by
    intro c hc
    have hne : c ≠ ' ' := by rintro rfl; exact h (List.mem_reverse.1 hc)
    simpa using hne
  unfold lastWord
  rw [List.reverse_append, List.takeWhile_append_of_pos hall, List.reverse_append,
    List.reverse_reverse]

theorem lastWord_blank (out : List Char) {word : List Char} (h : ' ' ∉ word) :
    lastWord (out ++ ' ' :: word) = word := by
  rw [show out ++ ' ' :: word = (out ++ [' ']) ++ word by simp, lastWord_append _ h]
  simp [lastWord]

theorem bracket_mem_of_glued? {word rest : List Char} (h : glued? word = some rest) :
    (∃ location, word = location ++ rest) ∧ ('[' ∈ rest ∨ ')' ∈ rest) := by
  obtain ⟨location, -, hrest⟩ := List.exists_of_findSome?_eq_some h
  obtain ⟨hcut, hbracket⟩ := Option.filter_eq_some_iff.1 hrest
  refine ⟨⟨location, Text.after?_eq_some_iff.1 hcut⟩, ?_⟩
  unfold startsWithBracket at hbracket
  split at hbracket
  · exact .inl List.mem_cons_self
  · exact .inr List.mem_cons_self
  · cases hbracket

/-- A descriptor does not come to end in a word about data locations. -/
theorem lastWord_addWord {out word : List Char} (hword : ' ' ∉ word)
    (h : lastWord out ∉ locationWords) : lastWord (addWord out word) ∉ locationWords := by
  unfold addWord
  split
  · exact h
  rename_i hnot
  split
  · -- what follows a location word starts with a bracket
    rename_i rest hglued
    obtain ⟨⟨location, rfl⟩, hbracket⟩ := bracket_mem_of_glued? hglued
    have hblank : ' ' ∉ rest := fun hc => hword (List.mem_append_right _ hc)
    rw [lastWord_append _ hblank]
    intro hlocation
    have hnone : ∀ w ∈ locationWords, '[' ∉ w ∧ ')' ∉ w := by decide
    obtain ⟨hopen, hclose⟩ := hnone _ hlocation
    rcases hbracket with hc | hc
    · exact hopen (List.mem_append_right _ hc)
    · exact hclose (List.mem_append_right _ hc)
  · split
    · rename_i hempty
      have hnil := lastWord_append [] hword
      rw [List.nil_append] at hnil
      rw [hnil]
      exact hnot
    · rw [lastWord_blank _ hword]
      exact hnot

theorem lastWord_normalize (descriptor : List Char) :
    lastWord (normalize descriptor) ∉ locationWords := by
  have hfold : ∀ (words : List (List Char)) (out : List Char), (∀ word ∈ words, ' ' ∉ word) →
      lastWord out ∉ locationWords → lastWord (words.foldl addWord out) ∉ locationWords := by
    intro words
    induction words with
    | nil => exact fun _ _ h => h
    | cons word rest ih =>
      intro out hwords h
      obtain ⟨hword, hrest⟩ := List.forall_mem_cons.1 hwords
      exact ih _ hrest (lastWord_addWord hword h)
  refine hfold _ [] (fun word hword hc => ?_) (by decide)
  have hblank := Text.isBlank_of_mem_words hword hc
  exact absurd hblank (by decide)

/-- **A struct descriptor with a full name is normalized already.** -/
theorem normalize_struct {name : String} (h : Text.IsDottedName name)
    (hnot : name.toList ∉ locationWords) :
    normalize ("struct " ++ name).toList = "struct ".toList ++ name.toList := by
  have hchars := fun c hc => Text.isNameChar_spec (h.2 c hc)
  have hwords : Text.words name.toList = [name.toList] :=
    Text.words_eq_singleton (by simpa using h.1) fun c hc => (hchars c hc).1
  have hstruct : Text.words ("struct " ++ name).toList =
      ['s', 't', 'r', 'u', 'c', 't'] :: Text.words name.toList := by
    rw [String.toList_append]
    rfl
  have hglued : glued? name.toList = none := by
    cases hglued : glued? name.toList with
    | none => rfl
    | some rest =>
      obtain ⟨⟨location, hword⟩, hbracket⟩ := bracket_mem_of_glued? hglued
      have hmem : ∀ c ∈ rest, c ∈ name.toList := fun c hc => hword ▸ List.mem_append_right _ hc
      rcases hbracket with hc | hc
      · exact absurd rfl (hchars _ (hmem _ hc)).2.1
      · exact absurd rfl (hchars _ (hmem _ hc)).2.2.2
  have hfirst : addWord [] ['s', 't', 'r', 'u', 'c', 't'] = ['s', 't', 'r', 'u', 'c', 't'] := by
    decide
  rw [normalize, hstruct, hwords, List.foldl_cons, hfirst, List.foldl_cons, List.foldl_nil, addWord,
    if_neg hnot, hglued]
  rfl

end Descriptor

/-! ## Finding structs again -/

namespace Declared

variable {types : Declared} {contract : Option String}

/-- Declared types are put together one declaration after the other. -/
inductive Registered : Declared → Prop
  | none : Registered {}
  | struct {types : Declared} (s : StructDecl) : Registered types → Registered (types.addStruct s)
  | enum {types : Declared} (e : EnumDecl) : Registered types → Registered (types.addEnum e)
  | contract {types : Declared} (name : String) :
      Registered types → Registered (types.addContract name)

/-- Declarations are kept under their names, in the order of these. -/
structure IsKept {α : Type} (nameOf : α → String) (entries : List (String × α)) : Prop where
  key_eq : ∀ e ∈ entries, e.1 = nameOf e.2
  sorted : entries.Pairwise fun a b => a.1 < b.1

theorem IsKept.nil {α : Type} (nameOf : α → String) : IsKept nameOf [] :=
  ⟨by simp, List.Pairwise.nil⟩

theorem IsKept.insert {α : Type} {nameOf : α → String} {entries : List (String × α)}
    (h : IsKept nameOf entries) (x : α) :
    IsKept nameOf (Ordered.insert (nameOf x) x entries) where
  key_eq e he := by
    rcases Ordered.eq_or_mem_of_mem_insert he with rfl | he
    · rfl
    · exact h.key_eq e he
  sorted := Ordered.pairwise_insert h.sorted _ _

theorem Registered.isKept (h : types.Registered) :
    IsKept StructDecl.name types.structs ∧ IsKept EnumDecl.name types.enums := by
  induction h with
  | none => exact ⟨.nil _, .nil _⟩
  | struct s _ ih => exact ⟨ih.1.insert s, ih.2⟩
  | enum e _ ih => exact ⟨ih.1, ih.2.insert e⟩
  | contract name _ ih => exact ih

/-- Every struct is kept under its name, which is a dotted name. -/
structure HasNames (types : Declared) : Prop where
  key_eq : ∀ e ∈ types.structs, e.1 = e.2.name
  dotted : ∀ e ∈ types.structs, Text.IsDottedName e.2.name

theorem mem_of_find? {α : Type} {entries : List (String × α)} {name : String} {x : α}
    (h : Ordered.find? name entries = some x) : (name, x) ∈ entries := by
  obtain ⟨⟨key, x⟩, hfind, rfl⟩ := Option.map_eq_some_iff.1 h
  have hkey : key = name := by simpa using List.find?_some hfind
  exact hkey ▸ List.mem_of_find?_eq_some hfind

/-- What a name stands for is kept under that name, or under one with a dot. -/
theorem exists_key_of_lookup? {α : Type} {entries : List (String × α)} {name : String} {x : α}
    (h : lookup? entries contract name = some x) :
    ∃ key, (key, x) ∈ entries ∧ (key = name ∨ '.' ∈ key.toList) := by
  unfold lookup? at h
  rcases Option.or_eq_some_iff.1 h with h | ⟨-, h⟩
  · exact ⟨name, mem_of_find? h, .inl rfl⟩
  rcases Option.or_eq_some_iff.1 h with h | ⟨-, h⟩
  · obtain ⟨c, -, h⟩ := Option.bind_eq_some_iff.1 h
    exact ⟨_, mem_of_find? h, .inr (by simp)⟩
  · unfold soleEndingIn? at h
    split at h
    · rename_i entry hfilter
      obtain rfl := Option.some.inj h
      have hmem : entry ∈ entries.filter fun entry => endsIn name entry.1 := by simp [hfilter]
      obtain ⟨hentry, hends⟩ := List.mem_filter.1 hmem
      have hsuffix := List.isSuffixOf_iff_suffix.1 hends
      exact ⟨entry.1, hentry, .inr (hsuffix.subset List.mem_cons_self)⟩
    · cases h

/-- What the last word of a descriptor stands for is not called like a location. -/
theorem not_location_of_lookup? {α : Type} {nameOf : α → String} {entries : List (String × α)}
    (hkey : ∀ e ∈ entries, e.1 = nameOf e.2)
    (hdotted : ∀ e ∈ entries, Text.IsDottedName (nameOf e.2)) {descriptor start : List Char}
    {name : String} {x : α}
    (hname : Descriptor.normalize descriptor = start ++ ' ' :: name.toList)
    (hx : lookup? entries contract name = some x) :
    (nameOf x).toList ∉ Descriptor.locationWords := by
  obtain ⟨key, hmem, hkeyname⟩ := exists_key_of_lookup? hx
  have hchars := (hdotted _ hmem).2
  obtain rfl : key = nameOf x := hkey _ hmem
  rcases hkeyname with rfl | hdot
  · -- the name is the last word of the descriptor
    have hblank : ' ' ∉ (nameOf x).toList := fun hc =>
      absurd (Text.isNameChar_spec (hchars _ hc)).1 (by decide)
    have hlast := Descriptor.lastWord_normalize descriptor
    rwa [hname, Descriptor.lastWord_blank start hblank] at hlast
  · intro hlocation
    have hnone : ∀ w ∈ Descriptor.locationWords, '.' ∉ w := by decide
    exact hnone _ hlocation hdot

/-- A struct that a descriptor names is not called like a location, and found by its full name. -/
theorem exists_find?_of_isNamed (h : types.HasNames) {s : StructDecl}
    (hs : types.IsNamed contract s) :
    s.name.toList ∉ Descriptor.locationWords ∧
      ∃ s', Ordered.find? s.name types.structs = some s' ∧ s'.name = s.name := by
  obtain ⟨descriptor, name, hname, hs⟩ := hs
  obtain ⟨key, hmem, -⟩ := exists_key_of_lookup? hs
  obtain rfl : key = s.name := h.key_eq _ hmem
  refine ⟨?_, ?_⟩
  · obtain ⟨rest, hrest, rfl⟩ := Option.map_eq_some_iff.1 hname
    have hdescriptor : Descriptor.normalize descriptor =
        ['s', 't', 'r', 'u', 'c', 't'] ++ ' ' :: (String.ofList rest).toList := by
      rw [Text.after?_eq_some_iff.1 hrest, String.toList_ofList]
      rfl
    exact not_location_of_lookup? h.key_eq h.dotted hdescriptor hs
  · cases hfind : Ordered.find? s.name types.structs with
    | none =>
      have hall := List.find?_eq_none.1 (Option.map_eq_none_iff.1 hfind) _ hmem
      simp at hall
    | some s' => exact ⟨s', rfl, (h.key_eq _ (mem_of_find? hfind)).symm⟩

/-- **The full name of a struct names that struct**, as seen from anywhere. -/
theorem resolveNested_struct {s : StructDecl} (h : types.HasNames)
    (hfind : Ordered.find? s.name types.structs = some s)
    (hnot : s.name.toList ∉ Descriptor.locationWords) (depth : Nat) (around : Expansion) :
    types.resolveNested (depth + 1) around contract ("struct " ++ s.name).toList =
      some (structTy s contract around (types.resolveNested depth)) := by
  have hmem := mem_of_find? hfind
  have hnormal : Descriptor.normalize ("struct " ++ s.name).toList =
      "struct ".toList ++ s.name.toList :=
    Descriptor.normalize_struct (h.dotted _ hmem) hnot
  have harray : Descriptor.array? ("struct ".toList ++ s.name.toList) = none := by
    cases hbefore : Text.before? [']'] ("struct ".toList ++ s.name.toList) with
    | none =>
      rw [Descriptor.array?, hbefore]
      rfl
    | some rest =>
      have hend : ']' ∈ "struct ".toList ++ s.name.toList := by
        rw [Text.before?_eq_some_iff.1 hbefore]
        simp
      rcases List.mem_append.1 hend with hc | hc
      · exact absurd hc (by decide)
      · exact absurd rfl (Text.isNameChar_spec ((h.dotted _ hmem).2 _ hc)).2.2.1
  have hmapping : Descriptor.mapping? ("struct ".toList ++ s.name.toList) = none := rfl
  have helementary : Descriptor.elementary? ("struct ".toList ++ s.name.toList) = none :=
    Descriptor.elementary?_eq_none_of_struct ⟨' ' :: s.name.toList, rfl⟩
  have hstruct : Descriptor.struct? ("struct ".toList ++ s.name.toList) = some s.name := by
    have hafter : Text.after? "struct ".toList ("struct ".toList ++ s.name.toList) =
        some s.name.toList := Text.after?_eq_some_iff.2 rfl
    change (Text.after? "struct ".toList _).map String.ofList = _
    rw [hafter]
    simp
  have hlookup : lookup? types.structs contract s.name = some s := by
    rw [lookup?, hfind]
    rfl
  rw [resolveNested]
  simp only [hnormal, hmapping, harray, helementary, hstruct]
  simp only [Option.bind_eq_bind, Option.bind_some, hlookup]
  rfl

end Declared

end Solscope
