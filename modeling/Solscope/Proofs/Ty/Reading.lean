import Mathlib.Tactic.IntervalCases
import Solscope.Proofs.Ty.Nesting
import Solscope.Proofs.Ty.Sized

/-!
# Reading descriptors

What is needed to find a descriptor read as expected: which texts are normalized already, and for
each kind of type, what its descriptors look like.

* `Descriptor.IsOpening`: the start of a word that is in no word about locations.
* `Descriptor.exists_normalize_append`: **such a start is kept**, and the rest does not depend on
  it.
* `Descriptor.elementary?_text`: the text of a built-in type names that type.
* `Declared.resolveNested_mapping` and others: what each kind of type is read from.
* `Declared.resolveNested_library`: **a library is read as a contract of its name**.
-/

namespace Solscope

namespace Descriptor

variable {start cs word : List Char}

/-! ## Words of descriptors -/

/-- The start of a word that is in no word about locations, nor one of these in it. -/
structure IsOpening (start : List Char) : Prop where
  not_blank : ∀ c ∈ start, Text.isBlank c = false
  apart : ∀ location ∈ locationWords, ¬ location <+: start ∧ ¬ start <+: location

theorem IsOpening.ne_nil (h : IsOpening start) : start ≠ [] := by
  rintro rfl
  exact (h.apart ['r', 'e', 'f'] (by decide)).2 List.nil_prefix

theorem isOpening_mapping : IsOpening "mapping(".toList :=
  ⟨Text.forall_not_blank (by decide), by decide⟩

theorem isOpening_contract : IsOpening "contract".toList :=
  ⟨Text.forall_not_blank (by decide), by decide⟩

theorem isOpening_library : IsOpening "library".toList :=
  ⟨Text.forall_not_blank (by decide), by decide⟩

/-- **A word that starts like that is settled.** -/
theorem IsOpening.isSettled (h : IsOpening start) (hcs : ∀ c ∈ cs, Text.isBlank c = false) :
    IsSettled (start ++ cs) := by
  have hapart : ∀ location ∈ locationWords, ¬ location <+: start ++ cs := by
    intro location hlocation hprefix
    obtain ⟨hleft, hright⟩ := h.apart location hlocation
    exact (List.prefix_or_prefix_of_prefix hprefix (List.prefix_append start cs)).elim hleft hright
  refine ⟨by simp [h.ne_nil], fun c hc => ?_, fun hlocation => ?_,
    fun location hlocation rest hrest => ?_⟩
  · exact (List.mem_append.1 hc).elim (h.not_blank c) (hcs c)
  · exact hapart _ hlocation (List.prefix_refl _)
  · exact absurd ⟨rest, hrest.symm⟩ (hapart location hlocation)

/-- What normalizing adds to a text does not depend on how it starts. -/
theorem exists_foldl_addWord (ws : List (List Char)) (out : List Char) :
    ∃ tail, ∀ start : List Char, start ≠ [] → ws.foldl addWord (start ++ out) = start ++ tail := by
  induction ws generalizing out with
  | nil => exact ⟨out, fun _ _ => rfl⟩
  | cons w ws ih =>
    have hone : ∃ out', ∀ start : List Char, start ≠ [] →
        addWord (start ++ out) w = start ++ out' := by
      unfold addWord
      split
      · exact ⟨out, fun _ _ => rfl⟩
      split
      · rename_i rest _
        exact ⟨out ++ rest, fun start _ => List.append_assoc start out rest⟩
      · refine ⟨out ++ ' ' :: w, fun start hstart => ?_⟩
        rw [if_neg (by simp [hstart]), List.append_assoc]
    obtain ⟨out', hout'⟩ := hone
    obtain ⟨tail, htail⟩ := ih out'
    refine ⟨tail, fun start hstart => ?_⟩
    rw [List.foldl_cons, hout' start hstart, htail start hstart]

/-- **The start of a text is kept**, and the rest of it is normalized in the same way for all. -/
theorem exists_normalize_append (cs : List Char) :
    ∃ tail, ∀ start, IsOpening start → normalize (start ++ cs) = start ++ tail := by
  obtain ⟨first, rest, rfl, hfirst, hwords⟩ := Text.words_start cs
  obtain ⟨tail, htail⟩ := exists_foldl_addWord (Text.words rest) first
  refine ⟨tail, fun start hstart => ?_⟩
  rw [normalize, hwords start hstart.ne_nil hstart.not_blank, List.foldl_cons,
    addWord_of_isSettled (hstart.isSettled hfirst)]
  exact htail start hstart.ne_nil

namespace IsNormal

/-- The first word may be longer. -/
theorem withStart (h : IsNormal cs) (hcs : cs ≠ []) (hstart : IsOpening start) :
    IsNormal (start ++ cs) := by
  obtain ⟨ws, rfl, hws⟩ := h
  cases ws with
  | nil => exact absurd rfl hcs
  | cons w ws =>
    obtain ⟨hw, hrest⟩ := List.forall_mem_cons.1 hws
    refine ⟨(start ++ w) :: ws, (Text.joined_cons_append start hw.ne_nil ws).symm, ?_⟩
    exact List.forall_mem_cons.2 ⟨hstart.isSettled hw.not_blank, hrest⟩

/-- Two texts may be put together with a blank between. -/
theorem append_blank {left right : List Char} (hleft : IsNormal left) (hne : left ≠ [])
    (hright : IsNormal right) (hne' : right ≠ []) : IsNormal (left ++ ' ' :: right) := by
  obtain ⟨ws, rfl, hws⟩ := hleft
  obtain ⟨vs, rfl, hvs⟩ := hright
  have hvs' : vs ≠ [] := by
    rintro rfl
    exact hne' rfl
  refine ⟨ws ++ vs, (Text.joined_append hne hvs' fun v hv => (hvs v hv).ne_nil).symm, ?_⟩
  exact fun w hw => (List.mem_append.1 hw).elim (hws w) (hvs w)

theorem of_word (h : IsSettled word) : IsNormal word :=
  ⟨[word], rfl, by simpa using h⟩

/-- **The text of a mapping is normalized** if those of its key and value are. -/
theorem mapping {k v : List Char} (hk : IsNormal k) (hk' : k ≠ []) (hv : IsNormal v)
    (hv' : v ≠ []) :
    IsNormal ("mapping(".toList ++ ((k ++ [' ']) ++ '=' :: '>' :: ' ' :: v) ++ [')']) := by
  have harrow : IsNormal ['=', '>'] := .of_word
    ⟨by decide, Text.forall_not_blank (by decide), by decide, glued?_eq_none_iff.1 (by decide)⟩
  have hinner : IsNormal (k ++ ' ' :: (['=', '>'] ++ ' ' :: v)) :=
    hk.append_blank hk' (harrow.append_blank (by decide) hv hv') (by simp)
  have hshape : (k ++ [' ']) ++ '=' :: '>' :: ' ' :: v = k ++ ' ' :: (['=', '>'] ++ ' ' :: v) := by
    simp
  rw [hshape]
  exact (hinner.withStart (by simp) isOpening_mapping).append rfl
    (Text.forall_not_blank (by decide))

end IsNormal

/-- A name is settled, unless it is a word about locations. -/
theorem isSettled_name {name : String} (h : Text.IsDottedName name)
    (hnot : name.toList ∉ locationWords) : IsSettled name.toList := by
  have hchars := fun c hc => Text.isNameChar_spec (h.2 c hc)
  refine ⟨by simpa using h.1, fun c hc => (hchars c hc).1, hnot, fun location _ rest hrest => ?_⟩
  by_contra hbracket
  rw [Bool.not_eq_false] at hbracket
  have hmem : ∀ c ∈ rest, c ∈ name.toList := fun c hc => hrest ▸ List.mem_append_right _ hc
  unfold startsWithBracket at hbracket
  split at hbracket
  · exact (hchars _ (hmem _ List.mem_cons_self)).2.1 rfl
  · exact (hchars _ (hmem _ List.mem_cons_self)).2.2.2 rfl
  · cases hbracket

theorem isSettled_struct : IsSettled ['s', 't', 'r', 'u', 'c', 't'] :=
  ⟨by decide, Text.forall_not_blank (by decide), by decide, glued?_eq_none_iff.1 (by decide)⟩

theorem isSettled_enum : IsSettled ['e', 'n', 'u', 'm'] :=
  ⟨by decide, Text.forall_not_blank (by decide), by decide, glued?_eq_none_iff.1 (by decide)⟩

/-- Built-in names start with one of five letters. -/
theorem elementary?_eq_none {c : Char} (hc : c ∉ ['b', 'a', 's', 'u', 'i']) (cs : List Char) :
    elementary? (c :: cs) = none := by
  have hname : ∀ (name : String) (d : Char), name.toList.head? = some d →
      d ∈ ['b', 'a', 's', 'u', 'i'] → String.ofList (c :: cs) ≠ name := by
    rintro _ d hhead hd rfl
    rw [String.toList_ofList] at hhead
    obtain rfl := Option.some.inj hhead
    exact hc hd
  have hafter : ∀ d ds, d ∈ ['b', 'a', 's', 'u', 'i'] → Text.after? (d :: ds) (c :: cs) = none := by
    intro d ds hd
    rw [Option.eq_none_iff_forall_ne_some]
    intro rest hrest
    obtain ⟨rfl, -⟩ := List.cons.inj (Text.after?_eq_some_iff.1 hrest)
    exact hc hd
  unfold elementary?
  split
  all_goals try exact absurd ‹_› (hname _ _ rfl (by decide))
  rw [hafter _ _ (by decide), hafter _ _ (by decide), hafter _ _ (by decide)]

/-- **The text of a built-in type names that type.** -/
theorem elementary?_text {t : Ty} (h : t.isBuiltIn = true) (hw : t.hasWidth = true) :
    elementary? t.text.toList = some t := by
  have hwidth : ∀ n, (decide (1 ≤ n) && decide (n ≤ 32)) = true → 1 ≤ n ∧ n ≤ 32 := by simp
  cases t with
  | uint n | int n | fixedBytes n =>
    obtain ⟨h1, h32⟩ := hwidth n hw
    interval_cases n <;> rfl
  | bool | address | bytes | string => rfl
  | _ => cases h

/-- The text of a built-in type is one word of letters and digits. -/
theorem isDottedName_text {t : Ty} (h : t.isBuiltIn = true) (hw : t.hasWidth = true) :
    Text.IsDottedName t.text ∧ t.text.toList ∉ locationWords := by
  have hwidth : ∀ n, (decide (1 ≤ n) && decide (n ≤ 32)) = true → n ∈ List.range 33 := by
    intro n hn
    simp only [Bool.and_eq_true, decide_eq_true_eq] at hn
    exact List.mem_range.2 (by omega)
  have hwidths : ∀ n ∈ List.range 33, ∀ t ∈ [Ty.uint n, .int n, .fixedBytes n],
      Text.IsDottedName t.text ∧ t.text.toList ∉ locationWords := by decide +kernel
  cases t with
  | uint n | int n | fixedBytes n => exact hwidths n (hwidth n hw) _ (by simp)
  | bool | address | bytes | string => decide
  | _ => cases h

end Descriptor

theorem Ty.text_ne_nil (t : Ty) : t.text.toList ≠ [] := by
  cases t <;> simp [Ty.text]

namespace Declared

open Descriptor

variable {types : Declared} {contract : Option String} {depth : Nat} {around : Expansion}
  {descriptor : List Char}

/-! ## Reading descriptors -/

/-- What a descriptor names depends on its words only. -/
theorem resolveNested_congr_words {other : List Char}
    (h : Text.words descriptor = Text.words other) :
    types.resolveNested depth around contract descriptor =
      types.resolveNested depth around contract other := by
  cases depth with
  | zero => rfl
  | succ depth => rw [resolveNested, resolveNested, normalize_congr h]

theorem resolveNested_mapping {key value : List Char} {k v : Ty}
    (h : mapping? (normalize descriptor) = some (key, value))
    (hk : types.resolveNested depth around contract key = some k)
    (hv : types.resolveNested depth around contract value = some v) :
    types.resolveNested (depth + 1) around contract descriptor = some (.mapping k v) := by
  rw [resolveNested]
  simp only [h, hk, hv, Option.bind_eq_bind, Option.bind_some]
  rfl

theorem resolveNested_dynamicArray {element : List Char} {t : Ty}
    (hnot : mapping? (normalize descriptor) = none)
    (h : array? (normalize descriptor) = some (element, []))
    (ht : types.resolveNested depth around contract element = some t) :
    types.resolveNested (depth + 1) around contract descriptor = some (.dynamicArray t) := by
  rw [resolveNested]
  simp only [hnot, h, ht, Option.bind_eq_bind, Option.bind_some]
  rfl

theorem resolveNested_staticArray {element size : List Char} {t : Ty} {length : Nat}
    (hnot : mapping? (normalize descriptor) = none)
    (h : array? (normalize descriptor) = some (element, size)) (hsize : size ≠ [])
    (hlength : Text.readSize size = .ok length)
    (ht : types.resolveNested depth around contract element = some t) :
    types.resolveNested (depth + 1) around contract descriptor = some (.staticArray t length) := by
  have hempty : size.isEmpty = false := by simpa using hsize
  rw [resolveNested]
  simp only [hnot, h, ht, hempty, hlength, Option.bind_eq_bind, Option.bind_some]
  rfl

theorem resolveNested_elementary {t : Ty} (hmapping : mapping? (normalize descriptor) = none)
    (harray : array? (normalize descriptor) = none)
    (h : elementary? (normalize descriptor) = some t) :
    types.resolveNested (depth + 1) around contract descriptor = some t := by
  rw [resolveNested]
  simp only [hmapping, harray, h]
  rfl

/-- **The full name of an enumeration names that enumeration**, as seen from anywhere. -/
theorem resolveNested_enum {e : EnumDecl} (hname : Text.IsDottedName e.name)
    (hnot : e.name.toList ∉ locationWords) (hfind : Ordered.find? e.name types.enums = some e) :
    types.resolveNested (depth + 1) around contract ("enum ".toList ++ e.name.toList) =
      some (.enum e.name e.members) := by
  have hnormal : normalize ("enum ".toList ++ e.name.toList) = "enum ".toList ++ e.name.toList :=
    normalize_eq_self_iff.2 ((IsNormal.of_word isSettled_enum).joinWord (isSettled_name hname hnot))
  have hmapping : mapping? ("enum ".toList ++ e.name.toList) = none := rfl
  have harray : array? ("enum ".toList ++ e.name.toList) = none := by
    refine array?_eq_none fun hc => ?_
    rcases List.mem_append.1 hc with hc | hc
    · exact absurd hc (by decide)
    · exact (Text.isNameChar_spec (hname.2 _ hc)).2.2.1 rfl
  have helementary : elementary? ("enum ".toList ++ e.name.toList) = none :=
    elementary?_eq_none (by decide) _
  have hstruct : struct? ("enum ".toList ++ e.name.toList) = none := rfl
  have henum : enum? ("enum ".toList ++ e.name.toList) = some e.name := by
    have hafter : Text.after? "enum ".toList ("enum ".toList ++ e.name.toList) =
        some e.name.toList := Text.after?_eq_some_iff.2 rfl
    change (Text.after? "enum ".toList _).map String.ofList = _
    rw [hafter]
    simp
  have hlookup : lookup? types.enums contract e.name = some e := by
    rw [lookup?, hfind]
    rfl
  rw [resolveNested]
  simp only [hnormal, hmapping, harray, helementary, hstruct, henum]
  simp only [Option.bind_eq_bind, Option.bind_some, hlookup]
  rfl

/-! ## Libraries -/

theorem after?_append (start more cs : List Char) :
    Text.after? (start ++ more) (start ++ cs) = Text.after? more cs := by
  refine Option.ext fun rest => ?_
  rw [Text.after?_eq_some_iff, Text.after?_eq_some_iff, List.append_assoc,
    List.append_cancel_left_eq]

/-- The name of a contract or library comes after a blank. -/
theorem contract?_library (cs : List Char) :
    contract? ("library".toList ++ cs) = contract? ("contract".toList ++ cs) := by
  have hcontract : Text.after? ("contract".toList ++ [' ']) ("contract".toList ++ cs) =
      Text.after? [' '] cs := after?_append ..
  have hlibrary : Text.after? ("library".toList ++ [' ']) ("library".toList ++ cs) =
      Text.after? [' '] cs := after?_append ..
  have hother : Text.after? ("library".toList ++ [' ']) ("contract".toList ++ cs) = none := rfl
  have hother' : Text.after? ("contract".toList ++ [' ']) ("library".toList ++ cs) = none := rfl
  change ((Text.after? ("contract".toList ++ [' ']) _).or
      (Text.after? ("library".toList ++ [' ']) _)).map String.ofList =
    ((Text.after? ("contract".toList ++ [' ']) _).or
      (Text.after? ("library".toList ++ [' ']) _)).map String.ofList
  rw [hcontract, hlibrary, hother, hother', Option.none_or, Option.or_none]

/-- **A library is read as a contract of its name**, also inside other types. -/
theorem resolveNested_library (types : Declared) (depth : Nat) (around : Expansion)
    (contract : Option String) (cs : List Char) :
    types.resolveNested depth around contract ("library".toList ++ cs) =
      types.resolveNested depth around contract ("contract".toList ++ cs) := by
  induction depth generalizing cs with
  | zero => rfl
  | succ depth ih =>
    obtain ⟨tail, htail⟩ := exists_normalize_append cs
    have hmapping : mapping? ("library".toList ++ tail) = none ∧
        mapping? ("contract".toList ++ tail) = none := ⟨rfl, rfl⟩
    have helementary : elementary? ("library".toList ++ tail) = none ∧
        elementary? ("contract".toList ++ tail) = none :=
      ⟨elementary?_eq_none (by decide) _, elementary?_eq_none (by decide) _⟩
    have hstruct : struct? ("library".toList ++ tail) = none ∧
        struct? ("contract".toList ++ tail) = none := ⟨rfl, rfl⟩
    have henum : enum? ("library".toList ++ tail) = none ∧
        enum? ("contract".toList ++ tail) = none := ⟨rfl, rfl⟩
    have harray : array? ("library".toList ++ tail) =
          (array? tail).map (fun p => ("library".toList ++ p.1, p.2)) ∧
        array? ("contract".toList ++ tail) =
          (array? tail).map (fun p => ("contract".toList ++ p.1, p.2)) :=
      ⟨array?_append (by decide) tail, array?_append (by decide) tail⟩
    rw [resolveNested, resolveNested, htail _ isOpening_library, htail _ isOpening_contract]
    simp only [hmapping, harray, helementary, hstruct, henum, contract?_library]
    cases array? tail with
    | none => rfl
    | some cut => simp only [Option.map_some, Option.bind_eq_bind, Option.bind_some, ih]

theorem resolveNested_normalize (types : Declared) (depth : Nat) (around : Expansion)
    (contract : Option String) (descriptor : List Char) :
    types.resolveNested depth around contract (normalize descriptor) =
      types.resolveNested depth around contract descriptor := by
  cases depth with
  | zero => rfl
  | succ depth => rw [resolveNested, resolveNested, normalize_normalize]

end Declared

end Solscope
