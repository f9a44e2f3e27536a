import Solscope.Proofs.Ty.Lookup
import Solscope.Proofs.Ty.Reading

/-!
# The text of a type

A type has one text, however its descriptor was spelled: names are full, widths are written out,
words about data locations are left out, and libraries are called contracts. The text is a
descriptor again. It is cut where the descriptor was, because it has the same brackets and arrows:
names, widths and lengths have none.

* `Declared.Respells`: the text of a type names the type, and has the marks of a descriptor.
* `Declared.respells_of_resolveNested`: it does so for every descriptor that names the type.
* `Declared.resolve?_text`: **the text of a type is a descriptor of it**.
-/

namespace Solscope.Declared

open Descriptor

variable {types : Declared} {contract : Option String} {depth : Nat} {around : Expansion}
  {descriptor : List Char}

/-- A name ends the full name of what it stands for. -/
theorem suffix_of_lookup? {α : Type} {nameOf : α → String} {entries : List (String × α)}
    (h : IsKept nameOf entries) {name : String} {x : α}
    (hx : lookup? entries contract name = some x) : name.toList <:+ (nameOf x).toList := by
  obtain ⟨key, hmem, hrank, -⟩ := exists_first_of_lookup? h hx
  obtain rfl : key = nameOf x := h.key_eq _ hmem
  rcases rank_le_two_iff.1 hrank with heq | heq | hends
  · subst heq
    exact List.suffix_refl _
  · obtain ⟨c, -, heq⟩ := Option.map_eq_some_iff.1 heq
    rw [← heq, String.toList_append]
    exact List.suffix_append _ _
  · exact (List.suffix_cons _ _).trans (List.isSuffixOf_iff_suffix.1 hends)

/-! ## Texts of types -/

/-- The text of a type names the type, and has the brackets and arrows of a descriptor of it. -/
structure Respells (types : Declared) (depth : Nat) (around : Expansion) (contract : Option String)
    (descriptor : List Char) (t : Ty) : Prop where
  normal : IsNormal t.text.toList
  marks_eq : marks t.text.toList = marks descriptor
  resolved : types.resolveNested depth around contract t.text.toList = some t

namespace Respells

theorem mapping {key value : List Char} {k v : Ty}
    (h : mapping? (normalize descriptor) = some (key, value))
    (hk : types.Respells depth around contract key k)
    (hv : types.Respells depth around contract value v) :
    types.Respells (depth + 1) around contract descriptor (.mapping k v) := by
  obtain ⟨left, right, hdescriptor, hnesting, rfl, rfl⟩ := mapping?_eq_some_iff.1 h
  have hkmarks : marks k.text.toList = marks left := hk.marks_eq.trans (marks_trim left)
  have hvmarks : marks v.text.toList = marks right := hv.marks_eq.trans (marks_trim right)
  have hleft : marks (k.text.toList ++ [' ']) = marks left := by
    rw [marks_append _ (by simp), hkmarks]
    exact List.append_nil _
  have htext : (Ty.mapping k v).text.toList = "mapping(".toList ++
      ((k.text.toList ++ [' ']) ++ '=' :: '>' :: ' ' :: v.text.toList) ++ [')'] := by
    simp [Ty.text, String.toList_append]
  have hnormal : IsNormal (Ty.mapping k v).text.toList :=
    htext ▸ hk.normal.mapping k.text_ne_nil hv.normal v.text_ne_nil
  refine ⟨hnormal, ?_, ?_⟩
  · rw [htext, marks_mapping, hleft, marks_cons_blank (by decide), hvmarks, ← marks_mapping,
      ← hdescriptor, marks_normalize]
  · have hcut : mapping? (normalize (Ty.mapping k v).text.toList) =
        some (Text.trim (k.text.toList ++ [' ']), Text.trim (' ' :: v.text.toList)) := by
      rw [normalize_eq_self_iff.2 hnormal, mapping?_eq_some_iff]
      exact ⟨_, _, htext, hleft ▸ hnesting, rfl, rfl⟩
    refine resolveNested_mapping hcut ?_ ?_
    · rw [← hk.resolved]
      exact resolveNested_congr_words
        ((Text.words_trim _).trans (Text.words_append_singleton (by decide) _))
    · rw [← hv.resolved]
      exact resolveNested_congr_words
        ((Text.words_trim _).trans (Text.words_cons_blank (by decide) _))

/-- The text of an array ends in brackets, with a length between or nothing. -/
theorem array_text {element : Ty}
    (he : types.Respells depth around contract descriptor element) (size : List Char)
    (hsize : ∀ c ∈ size, c.isDigit = true) :
    IsNormal (element.text.toList ++ '[' :: size ++ [']']) ∧
      mapping? (element.text.toList ++ '[' :: size ++ [']']) = none ∧
      array? (element.text.toList ++ '[' :: size ++ [']']) = some (element.text.toList, size) ∧
      marks (element.text.toList ++ '[' :: size ++ [']']) = marks descriptor := by
  have hname : ∀ c ∈ size, Text.isNameChar c = true := fun c hc => by
    simp [Text.isNameChar, Char.isAlphanum, hsize c hc]
  have hblank : ∀ c ∈ size, Text.isBlank c = false := fun c hc =>
    (Text.isNameChar_spec (hname c hc)).1
  have hopen : '[' ∉ size := fun hc => absurd (hsize _ hc) (by decide)
  refine ⟨?_, mapping?_eq_none_of_bracket _, ?_, ?_⟩
  · rw [List.append_assoc]
    refine he.normal.append rfl fun c hc => ?_
    rcases List.mem_cons.1 hc with rfl | hc
    · decide
    · rcases List.mem_append.1 hc with hc | hc
      · exact hblank c hc
      · obtain rfl := List.mem_singleton.1 hc
        decide
  · exact array?_eq_some_iff.2 ⟨size, rfl, hopen, Text.trim_eq_self hblank⟩
  · rw [marks_array, marks_of_isNameChar hname, List.append_nil, he.marks_eq]

theorem dynamicArray {element : List Char} {t : Ty}
    (h : array? (normalize descriptor) = some (element, []))
    (ht : types.Respells depth around contract element t) :
    types.Respells (depth + 1) around contract descriptor (.dynamicArray t) := by
  obtain ⟨inner, hdescriptor, -, hinner⟩ := array?_eq_some_iff.1 h
  have htext : (Ty.dynamicArray t).text.toList = t.text.toList ++ '[' :: [] ++ [']'] := by
    simp [Ty.text, String.toList_append]
  obtain ⟨hnormal, hmapping, harray, hmarks⟩ := ht.array_text [] (by simp)
  rw [← htext] at hnormal hmapping harray hmarks
  have hself := normalize_eq_self_iff.2 hnormal
  refine ⟨hnormal, ?_, ?_⟩
  · rw [hmarks, ← marks_normalize descriptor, hdescriptor, marks_array, ← marks_trim inner, hinner]
    exact (List.append_nil _).symm
  · exact resolveNested_dynamicArray (by rw [hself, hmapping]) (by rw [hself, harray]) ht.resolved

theorem staticArray {element size : List Char} {t : Ty} {length : Nat}
    (h : array? (normalize descriptor) = some (element, size))
    (hsize : Text.readSize size = .ok length)
    (ht : types.Respells depth around contract element t) :
    types.Respells (depth + 1) around contract descriptor (.staticArray t length) := by
  obtain ⟨inner, hdescriptor, -, hinner⟩ := array?_eq_some_iff.1 h
  have htext : (Ty.staticArray t length).text.toList =
      t.text.toList ++ '[' :: length.repr.toList ++ [']'] := by
    simp [Ty.text, String.toList_append]
  have hspells := Text.spellsNat_repr length
  obtain ⟨hnormal, hmapping, harray, hmarks⟩ := ht.array_text length.repr.toList hspells.2.1
  rw [← htext] at hnormal hmapping harray hmarks
  have hself := normalize_eq_self_iff.2 hnormal
  have hread : Text.readSize length.repr.toList = .ok length :=
    Text.readNat_eq_ok_iff.2 ⟨.inl hspells, (Text.readNat_eq_ok_iff.1 hsize).2⟩
  refine ⟨hnormal, ?_, ?_⟩
  · rw [hmarks, ← marks_normalize descriptor, hdescriptor, marks_array, ← marks_trim inner, hinner,
      marks_of_readSize hsize]
    exact (List.append_nil _).symm
  · exact resolveNested_staticArray (by rw [hself, hmapping]) (by rw [hself, harray]) hspells.1
      hread ht.resolved

theorem elementary {t : Ty} (h : elementary? (normalize descriptor) = some t) :
    types.Respells (depth + 1) around contract descriptor t := by
  have hbuiltIn := elementary?_isBuiltIn h
  have hw := (elementary?_shape h).1
  obtain ⟨hname, hnot⟩ := isDottedName_text hbuiltIn hw
  have hnormal : IsNormal t.text.toList := .of_word (isSettled_name hname hnot)
  have hself := normalize_eq_self_iff.2 hnormal
  refine ⟨hnormal, ?_, resolveNested_elementary ?_ ?_ ?_⟩
  · rw [marks_of_isNameChar hname.2, ← marks_normalize, marks_of_elementary? h]
  · rw [hself]
    exact mapping?_eq_none fun hc => absurd (hname.2 _ hc) (by decide)
  · rw [hself]
    exact array?_eq_none fun hc => (Text.isNameChar_spec (hname.2 _ hc)).2.2.1 rfl
  · rw [hself]
    exact elementary?_text hbuiltIn hw

/-- What a name stands for is spelled by its full name, after the same word. -/
theorem of_lookup? {α : Type} {nameOf : α → String} {entries : List (String × α)}
    (h : IsKept nameOf entries) (hdotted : ∀ e ∈ entries, Text.IsDottedName (nameOf e.2))
    {word : List Char} (hword : IsSettled word) {name : String} {x : α} {t : Ty}
    (hname : normalize descriptor = word ++ ' ' :: name.toList)
    (hx : lookup? entries contract name = some x)
    (htext : t.text.toList = word ++ ' ' :: (nameOf x).toList)
    (hresolved : Ordered.find? (nameOf x) entries = some x → Text.IsDottedName (nameOf x) →
      (nameOf x).toList ∉ locationWords →
      types.resolveNested depth around contract t.text.toList = some t) :
    types.Respells depth around contract descriptor t := by
  obtain ⟨key, hmem, -⟩ := exists_key_of_lookup? hx
  have hdot : Text.IsDottedName (nameOf x) := hdotted _ hmem
  have hnot : (nameOf x).toList ∉ locationWords := not_location_of_lookup? h.key_eq hdotted hname hx
  have hnormal : IsNormal t.text.toList := by
    rw [htext, ← Text.joinWord_of_ne_nil hword.ne_nil]
    exact (IsNormal.of_word hword).joinWord (isSettled_name hdot hnot)
  have hfind : Ordered.find? (nameOf x) entries = some x :=
    h.find?_eq_some_iff.2 (h.key_eq _ hmem ▸ hmem)
  refine ⟨hnormal, ?_, hresolved hfind hdot hnot⟩
  -- the name in the descriptor is the end of a full name, and neither has a bracket
  have hmarksName : marks name.toList = [] := marks_of_isNameChar fun c hc =>
    hdot.2 c ((suffix_of_lookup? h hx).subset hc)
  have hmarksFull : marks (nameOf x).toList = [] := marks_of_isNameChar hdot.2
  rw [htext, ← marks_normalize descriptor, hname, marks_append _ (by simp),
    marks_append _ (by simp), marks_cons_blank (by decide), marks_cons_blank (by decide),
    hmarksName, hmarksFull]

theorem struct (h : types.Registered) (hdotted : ∀ e ∈ types.structs, Text.IsDottedName e.2.name)
    {name : String} {s : StructDecl} (hname : struct? (normalize descriptor) = some name)
    (hs : lookup? types.structs contract name = some s) :
    types.Respells (depth + 1) around contract descriptor
      (structTy s contract around (types.resolveNested depth)) := by
  obtain ⟨rest, hrest, rfl⟩ := Option.map_eq_some_iff.1 hname
  have hdescriptor : normalize descriptor =
      ['s', 't', 'r', 'u', 'c', 't'] ++ ' ' :: (String.ofList rest).toList := by
    rw [Text.after?_eq_some_iff.1 hrest, String.toList_ofList]
    rfl
  have htext : (structTy s contract around (types.resolveNested depth)).text =
      "struct " ++ s.name := by
    unfold structTy
    split <;> rfl
  refine .of_lookup? h.isKept.1 hdotted isSettled_struct hdescriptor hs ?_ fun hfind _ hnot => ?_
  · rw [htext, String.toList_append]
    rfl
  · rw [htext]
    exact resolveNested_struct ⟨h.isKept.1.key_eq, hdotted⟩ hfind hnot depth around

theorem enum (h : types.Registered) (hdotted : ∀ e ∈ types.enums, Text.IsDottedName e.2.name)
    {name : String} {e : EnumDecl} (hname : enum? (normalize descriptor) = some name)
    (he : lookup? types.enums contract name = some e) :
    types.Respells (depth + 1) around contract descriptor (.enum e.name e.members) := by
  obtain ⟨rest, hrest, rfl⟩ := Option.map_eq_some_iff.1 hname
  have hdescriptor : normalize descriptor =
      ['e', 'n', 'u', 'm'] ++ ' ' :: (String.ofList rest).toList := by
    rw [Text.after?_eq_some_iff.1 hrest, String.toList_ofList]
    rfl
  have htext : (Ty.enum e.name e.members).text.toList = "enum ".toList ++ e.name.toList := by
    rw [Ty.text, String.toList_append]
  refine .of_lookup? h.isKept.2 hdotted isSettled_enum hdescriptor he htext
    fun hfind hdot hnot => ?_
  rw [htext]
  exact resolveNested_enum hdot hnot hfind

theorem contractOrLibrary {name : String} (hname : contract? (normalize descriptor) = some name)
    (ht : types.resolveNested depth around contract descriptor = some (.contract name)) :
    types.Respells depth around contract descriptor (.contract name) := by
  obtain ⟨rest, hrest, rfl⟩ := Option.map_eq_some_iff.1 hname
  have htext : (Ty.contract (String.ofList rest)).text.toList =
      "contract".toList ++ ' ' :: rest := by
    simp [Ty.text, String.toList_append]
  rcases Option.or_eq_some_iff.1 hrest with hcontract | ⟨-, hlibrary⟩
  · -- the text is the normalized descriptor
    have hself : normalize descriptor = (Ty.contract (String.ofList rest)).text.toList :=
      (Text.after?_eq_some_iff.1 hcontract).trans htext.symm
    refine ⟨hself ▸ isNormal_normalize descriptor, ?_, ?_⟩
    · rw [← hself, marks_normalize]
    · rw [← hself, resolveNested_normalize, ht]
  · have hdescriptor : normalize descriptor = "library".toList ++ ' ' :: rest :=
      (Text.after?_eq_some_iff.1 hlibrary).trans rfl
    obtain ⟨tail, htail⟩ := exists_normalize_append (' ' :: rest)
    have hkept : tail = ' ' :: rest := by
      have hlib := htail _ isOpening_library
      rw [← hdescriptor, normalize_normalize, hdescriptor] at hlib
      exact (List.append_cancel_left hlib).symm
    refine ⟨?_, ?_, ?_⟩
    · rw [htext, ← normalize_eq_self_iff, htail _ isOpening_contract, hkept]
    · rw [htext, ← marks_normalize descriptor, hdescriptor]
      rfl
    · rw [htext, ← resolveNested_library, ← hdescriptor, resolveNested_normalize, ht]

end Respells

/-- The text of a type that a descriptor names is a descriptor of it, at any depth. -/
theorem respells_of_resolveNested (h : types.Registered)
    (hstructs : ∀ e ∈ types.structs, Text.IsDottedName e.2.name)
    (henums : ∀ e ∈ types.enums, Text.IsDottedName e.2.name) {t : Ty}
    (ht : types.resolveNested depth around contract descriptor = some t) :
    types.Respells depth around contract descriptor t := by
  induction depth generalizing descriptor t with
  | zero => cases ht
  | succ depth ih =>
    have hspells := spellsOut_of_resolveNested ht
    cases names_of_resolveNested ht with
    | mapping hsides hk hv => exact .mapping hsides (ih hk) (ih hv)
    | dynamicArray hcut helement =>
      obtain ⟨element, hbrackets⟩ := hspells
      obtain ⟨rfl, rfl⟩ := Prod.mk.inj (Option.some.inj (hcut.symm.trans hbrackets))
      exact .dynamicArray hcut (ih helement)
    | staticArray hcut helement =>
      obtain ⟨element, size, hbrackets, hsize⟩ := hspells
      obtain ⟨rfl, rfl⟩ := Prod.mk.inj (Option.some.inj (hcut.symm.trans hbrackets))
      exact .staticArray hcut hsize (ih helement)
    | elementary helementary => exact .elementary helementary
    | struct hname hs => exact .struct h hstructs hname hs
    | enum =>
      obtain ⟨key, e, hkey, he, hname, hmembers⟩ := hspells
      rw [← hname, ← hmembers]
      exact .enum h henums hkey he
    | contract hname => exact .contractOrLibrary hname ht

/--
**The text of a type is a descriptor of it.** Let structs and enumerations be called by dotted
names. If a descriptor names a type as seen from inside a contract, or from none, then the text of
the type names the same type as seen from there.
-/
theorem resolve?_text (h : types.Registered)
    (hstructs : ∀ e ∈ types.structs, Text.IsDottedName e.2.name)
    (henums : ∀ e ∈ types.enums, Text.IsDottedName e.2.name) {descriptor : String} {t : Ty}
    (ht : types.resolve? descriptor contract = some t) :
    types.resolve? t.text contract = some t :=
  (respells_of_resolveNested h hstructs henums ht).resolved

/-- Short names, a location, a length with a sign and a library, in a mapping inside a mapping. -/
theorem resolve?_text_nested :
    let types := (({} : Declared).addStruct ⟨"Token.Info", some "Token",
        [("owner", "address"), ("older", "struct Token.Info[]")]⟩).addEnum
      ⟨"Token.State", ["On", "Off"]⟩
    let info : Ty := .struct "Token.Info" [("owner", .address),
      ("older", .dynamicArray (.structRef ⟨"Token.Info", some "Token", 1⟩))]
    let t : Ty := .mapping (.enum "Token.State" ["On", "Off"])
      (.mapping (.staticArray info 3) (.dynamicArray (.contract "Math")))
    types.resolve?
        "mapping(enum State => mapping(struct Info memory[ +3 ] storage ref => library Math[]))"
        (some "Token") = some t ∧
      t.text = "mapping(enum Token.State => mapping(struct Token.Info[3] => contract Math[]))" ∧
      types.resolve? "mapping(enum Token.State => mapping(struct Token.Info[3] => contract Math[]))"
        (some "Token") = some t := by
  intro types info t
  have ht : types.resolve?
      "mapping(enum State => mapping(struct Info memory[ +3 ] storage ref => library Math[]))"
      (some "Token") = some t := rfl
  have htext : t.text =
      "mapping(enum Token.State => mapping(struct Token.Info[3] => contract Math[]))" := by
    decide +kernel
  refine ⟨ht, htext, ?_⟩
  rw [← htext]
  exact resolve?_text (.enum _ (.struct _ .none)) (by decide) (by decide) ht

end Solscope.Declared
