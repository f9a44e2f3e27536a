import Solscope.Proofs.Source.Disassembly
import Solscope.Proofs.Text.Integer

/-!
# Compressed source maps

An entry leaves out what it repeats: a field that equals the one of the entry before may be blank,
and blank fields at the end may be dropped. Whatever follows the fourth field means nothing.

* `Entry.read_of_isText`: an entry is read from each of its texts.
* `decodeFrom_of_areTexts`: so are entries, and their mappings do not depend on the texts.
* `Entry.read_cases`, `decodeFrom_eq_error_iff`: reading fails at the first field at fault.
* `decode_compressed`: **a compressed map has the mappings of the one that spells all fields**, and
  what fails to be a map is named by its first entry at fault.
-/

namespace Solscope.SourceMap

open Text

/-! ## Texts of entries -/

/-- A field of a number that comes after `previous`: blank if it repeats it. -/
def IsNumberField (previous value : Int) (field : List Char) : Prop :=
  field = [] ∧ value = previous ∨ SpellsInt field value

/-- A field of a jump that comes after `previous`: blank if it repeats it. -/
def IsJumpField (previous value : Jump) (field : List Char) : Prop :=
  field = [] ∧ value = previous ∨ field = [value.letter]

namespace Entry

/-- Whether the numbers of an entry have 64 bits. -/
def InRange (e : Entry) : Prop := IsInt64 e.start ∧ IsInt64 e.length ∧ IsInt64 e.file

/-- The texts of an entry that comes after the entry `previous`. -/
inductive IsText (previous e : Entry) : List Char → Prop
  /-- All four fields, and further ones behind them. -/
  | full {start length file jump : List Char} {further : List (List Char)} :
      IsNumberField previous.start e.start start → IsNumberField previous.length e.length length →
      IsNumberField previous.file e.file file → IsJumpField previous.jump e.jump jump →
      (∀ field ∈ further, ':' ∉ field ∧ ';' ∉ field) →
      IsText previous e ([':'].intercalate (start :: length :: file :: jump :: further))
  /-- A blank field at the end may be dropped with its colon. -/
  | dropped {text : List Char} : IsText previous e (text ++ [':']) → IsText previous e text

/-- An entry with all fields spelled out. -/
def explicit (e : Entry) : List Char :=
  [':'].intercalate [(toString e.start).toList, (toString e.length).toList,
    (toString e.file).toList, [e.jump.letter]]

end Entry

/-- The texts of some entries, of which the first comes after the entry `previous`. -/
inductive AreTexts : Entry → List Entry → List (List Char) → Prop
  | nil {previous : Entry} : AreTexts previous [] []
  | cons {previous e : Entry} {entries : List Entry} {text : List Char} {texts : List (List Char)} :
      Entry.IsText previous e text → AreTexts e entries texts →
      AreTexts previous (e :: entries) (text :: texts)

/-- The source map that spells out all fields of its entries. -/
def explicit (entries : List Entry) : String :=
  String.ofList ([';'].intercalate (entries.map Entry.explicit))

/-! ## Fields -/

variable {previous e : Entry} {text field : List Char} {index k : Nat}

theorem not_mem_of_spellsInt {c : Char} {n : Int} (h : SpellsInt field n) (hplus : c ≠ '+')
    (hminus : c ≠ '-') (hdigit : c.isDigit = false) : c ∉ field := by
  intro hc
  rcases h.mem hc with rfl | rfl | hc
  · exact hplus rfl
  · exact hminus rfl
  · rw [hdigit] at hc
    cases hc

theorem IsNumberField.not_mem {previous value : Int} (h : IsNumberField previous value field) :
    ':' ∉ field ∧ ';' ∉ field := by
  rcases h with ⟨rfl, -⟩ | h
  · exact ⟨List.not_mem_nil, List.not_mem_nil⟩
  · exact ⟨not_mem_of_spellsInt h (by decide) (by decide) (by decide),
      not_mem_of_spellsInt h (by decide) (by decide) (by decide)⟩

theorem IsJumpField.not_mem {previous value : Jump} (h : IsJumpField previous value field) :
    ':' ∉ field ∧ ';' ∉ field := by
  rcases h with ⟨rfl, -⟩ | rfl
  · exact ⟨List.not_mem_nil, List.not_mem_nil⟩
  · cases value <;> decide

theorem readNumber_of_isNumberField {previous value : Int}
    (h : IsNumberField previous value field) (hvalue : IsInt64 value) :
    readNumber index previous (some field) = .ok value := by
  rcases h with ⟨rfl, rfl⟩ | h
  · rfl
  · have hread := readInt_eq_ok_iff.2 ⟨h, hvalue⟩
    cases field with
    | nil => exact absurd rfl h.ne_nil
    | cons c cs => rw [readNumber, hread]; simp

theorem readJump_of_isJumpField {previous value : Jump} (h : IsJumpField previous value field) :
    readJump index previous (some field) = .ok value := by
  rcases h with ⟨rfl, rfl⟩ | rfl
  · rfl
  · cases value <;> rfl

/-- A field that is not there reads like a blank one. -/
theorem readNumber_getD (previous : Int) (field : Option (List Char)) :
    readNumber index previous (some (field.getD [])) = readNumber index previous field := by
  cases field <;> rfl

theorem readJump_getD (previous : Jump) (field : Option (List Char)) :
    readJump index previous (some (field.getD [])) = readJump index previous field := by
  cases field <;> rfl

/-! ## Entries -/

namespace Entry

/-- What reading does with the fields of an entry. -/
theorem read_eq (index : Nat) (previous : Entry) (text : List Char) :
    read index previous text =
      let field (k : Nat) : Option (List Char) := some ((text.splitOn ':')[k]?.getD [])
      (readNumber index previous.start (field 0)).bind fun start =>
        (readNumber index previous.length (field 1)).bind fun length =>
          (readNumber index previous.file (field 2)).bind fun file =>
            (readJump index previous.jump (field 3)).bind fun jump =>
              .ok { start, length, file, jump } := by
  simp only [readNumber_getD, readJump_getD]
  rfl

/-- A colon at the end only adds a blank field. -/
theorem read_append_colon (index : Nat) (previous : Entry) (text : List Char) :
    read index previous (text ++ [':']) = read index previous text := by
  have hfields (k : Nat) : ((text ++ [':']).splitOn ':')[k]?.getD [] =
      (text.splitOn ':')[k]?.getD [] := by
    rw [List.splitOn_append_cons_self, List.splitOn_nil]
    rcases Nat.lt_or_ge k (text.splitOn ':').length with hlt | hge
    · rw [List.getElem?_append_left hlt]
    · rw [List.getElem?_append_right hge, List.getElem?_eq_none hge]
      cases k - (text.splitOn ':').length <;> rfl
  rw [read_eq, read_eq]
  simp only [hfields]

/-- **An entry is read from each of its texts.** -/
theorem read_of_isText (h : IsText previous e text) (he : e.InRange) (index : Nat) :
    read index previous text = .ok e := by
  induction h with
  | @full start length file jump further hstart hlength hfile hjump hfurther =>
    obtain ⟨hs, hl, hf⟩ := he
    have hcolon : ∀ field ∈ start :: length :: file :: jump :: further, ':' ∉ field := by
      simp only [List.forall_mem_cons]
      exact ⟨hstart.not_mem.1, hlength.not_mem.1, hfile.not_mem.1, hjump.not_mem.1,
        fun field hfield => (hfurther field hfield).1⟩
    rw [read_eq, List.splitOn_intercalate ':' hcolon (List.cons_ne_nil _ _)]
    change (readNumber index previous.start (some start)).bind _ = _
    rw [readNumber_of_isNumberField hstart hs]
    change (readNumber index previous.length (some length)).bind _ = _
    rw [readNumber_of_isNumberField hlength hl]
    change (readNumber index previous.file (some file)).bind _ = _
    rw [readNumber_of_isNumberField hfile hf]
    change (readJump index previous.jump (some jump)).bind _ = _
    rw [readJump_of_isJumpField hjump]
    rfl
  | dropped _ ih => rw [← read_append_colon, ih]

theorem not_mem_intercalate {c d : Char} (hc : c ≠ d) {fields : List (List Char)}
    (h : ∀ field ∈ fields, c ∉ field) : c ∉ [d].intercalate fields := by
  induction fields with
  | nil => simp
  | cons first rest ih =>
    obtain ⟨hfirst, hrest⟩ := List.forall_mem_cons.1 h
    cases rest with
    | nil => simpa using hfirst
    | cons next others =>
      rw [List.intercalate_cons_cons]
      simp only [List.mem_append, List.mem_singleton, not_or]
      exact ⟨⟨hfirst, hc⟩, ih hrest⟩

/-- No text of an entry reaches into the next one. -/
theorem IsText.not_mem (h : IsText previous e text) : ';' ∉ text := by
  induction h with
  | full hstart hlength hfile hjump hfurther =>
    refine not_mem_intercalate (by decide) ?_
    simp only [List.forall_mem_cons]
    exact ⟨hstart.not_mem.2, hlength.not_mem.2, hfile.not_mem.2, hjump.not_mem.2,
      fun field hfield => (hfurther field hfield).2⟩
  | dropped _ ih => exact fun hmem => ih (List.mem_append_left _ hmem)

theorem isText_explicit (previous e : Entry) : IsText previous e e.explicit :=
  .full (.inr (spellsInt_toString _)) (.inr (spellsInt_toString _)) (.inr (spellsInt_toString _))
    (.inr rfl) (by simp)

theorem explicit_ne_nil (e : Entry) : e.explicit ≠ [] := by
  intro h
  rw [explicit, List.intercalate_cons_cons] at h
  simp at h

/-- An entry has no place if one of its numbers is negative or its file is not known. -/
theorem span?_eq_none_iff (e : Entry) (sources : Sources) :
    e.span? sources = none ↔
      e.start < 0 ∨ e.length < 0 ∨ e.file < 0 ∨ sources.get? e.file.toNat = none := by
  unfold span?
  split
  · rename_i hpos
    rw [Sources.span?, Option.map_eq_none_iff]
    constructor
    · intro h
      exact .inr (.inr (.inr h))
    · rintro (h | h | h | h)
      · omega
      · omega
      · omega
      · exact h
  · rename_i hneg
    refine iff_of_true rfl ?_
    omega

theorem range_of_span? {sources : Sources} {span : Span} (h : e.span? sources = some span) :
    (span.file : Int) = e.file ∧ (span.offset : Int) = e.start ∧
      (span.length : Int) = e.length := by
  unfold span? at h
  split at h
  · rename_i hpos
    obtain ⟨f, -, rfl⟩ := Option.map_eq_some_iff.1 h
    exact ⟨Int.toNat_of_nonneg hpos.2.2, Int.toNat_of_nonneg hpos.1, Int.toNat_of_nonneg hpos.2.1⟩
  · cases h

end Entry

/-! ## Maps -/

variable {sources : Sources} {pc : Nat} {code : Bytes} {entries : List Entry}
  {texts : List (List Char)}

/-- The mappings of entries, the first one at offset `pc`, from where on the code is `code`. -/
def mappingsOf (sources : Sources) (pc : Nat) (code : Bytes) : List Entry → SourceMap
  | [] => []
  | e :: rest =>
    ⟨pc, e.span? sources, e.jump⟩ ::
      mappingsOf sources (pc + strideOf code) (code.drop (strideOf code)) rest

theorem length_mappingsOf (sources : Sources) (pc : Nat) (code : Bytes) (entries : List Entry) :
    (mappingsOf sources pc code entries).length = entries.length := by
  induction entries generalizing pc code with
  | nil => rfl
  | cons e rest ih => rw [mappingsOf, List.length_cons, List.length_cons, ih]

/-- A mapping has the place and the jump of its entry. -/
theorem eq_of_getElem?_mappingsOf {i : Nat} {m : Mapping} (he : entries[i]? = some e)
    (hm : (mappingsOf sources pc code entries)[i]? = some m) :
    m.span = e.span? sources ∧ m.jump = e.jump := by
  induction entries generalizing pc code i with
  | nil => cases he
  | cons first rest ih =>
    cases i with
    | zero =>
      obtain rfl := Option.some.inj he
      obtain rfl := Option.some.inj hm
      exact ⟨rfl, rfl⟩
    | succ i => exact ih he hm

/-- What decoding does with an entry and those after it. -/
theorem decodeFrom_cons (sources : Sources) (index pc : Nat) (code : Bytes) (previous : Entry)
    (text : List Char) (texts : List (List Char)) :
    decodeFrom sources index pc code previous (text :: texts) =
      (Entry.read index previous text).bind fun entry =>
        (decodeFrom sources (index + 1) (pc + strideOf code) (code.drop (strideOf code)) entry
          texts).bind fun rest => .ok (⟨pc, entry.span? sources, entry.jump⟩ :: rest) := rfl

/-- **Entries are read from their texts**, and each inherits from the entry read before. -/
theorem decodeFrom_of_areTexts (h : AreTexts previous entries texts)
    (hentries : ∀ e ∈ entries, e.InRange) (sources : Sources) (index pc : Nat) (code : Bytes) :
    decodeFrom sources index pc code previous texts = .ok (mappingsOf sources pc code entries) := by
  induction h generalizing index pc code with
  | nil => rfl
  | @cons previous e entries text texts htext _ ih =>
    obtain ⟨he, hrest⟩ := List.forall_mem_cons.1 hentries
    rw [decodeFrom_cons, Entry.read_of_isText htext he]
    change (decodeFrom _ _ _ _ e texts).bind _ = _
    rw [ih hrest]
    rfl

theorem AreTexts.not_mem (h : AreTexts previous entries texts) : ∀ text ∈ texts, ';' ∉ text := by
  induction h with
  | nil => intro text htext; cases htext
  | cons htext _ ih => exact List.forall_mem_cons.2 ⟨htext.not_mem, ih⟩

theorem areTexts_explicit (previous : Entry) (entries : List Entry) :
    AreTexts previous entries (entries.map Entry.explicit) := by
  induction entries generalizing previous with
  | nil => exact .nil
  | cons e rest ih => exact .cons (Entry.isText_explicit previous e) (ih e)

theorem decode_ofList {cs : List Char} (hcs : cs ≠ []) (code : Bytes) (sources : Sources) :
    decode (String.ofList cs) code sources =
      decodeFrom sources 0 0 code {} (cs.splitOn ';') := by
  have hne : (String.ofList cs).isEmpty = false := by
    rw [String.isEmpty_eq_false_iff]
    intro h
    have hlist := congrArg String.toList h
    rw [String.toList_ofList] at hlist
    exact hcs hlist
  rw [decode, hne, String.toList_ofList]
  rfl

/-- A map that is not empty is decoded from any texts of its entries. -/
theorem decode_of_areTexts (h : AreTexts {} entries texts) (hentries : ∀ e ∈ entries, e.InRange)
    (htext : [';'].intercalate texts ≠ []) (code : Bytes) (sources : Sources) :
    decode (String.ofList ([';'].intercalate texts)) code sources =
      .ok (mappingsOf sources 0 code entries) := by
  have hne : texts ≠ [] := by
    rintro rfl
    exact htext rfl
  rw [decode_ofList htext, List.splitOn_intercalate ';' h.not_mem hne]
  exact decodeFrom_of_areTexts h hentries sources 0 0 code

/-! ## Faults -/

/-- A field of an entry in which something stands that is no number, or no jump in the fourth. -/
def FaultAt (text : List Char) (k : Nat) (field : List Char) : Prop :=
  (text.splitOn ':')[k]? = some field ∧ field ≠ [] ∧
    (k < 3 ∧ (¬ ∃ n, SpellsInt field n ∧ IsInt64 n) ∨ k = 3 ∧ ∀ jump : Jump, field ≠ [jump.letter])

/-- The error that a field at fault gives. -/
def faultOf (index k : Nat) (field : List Char) : SourceMapError :=
  if k < 3 then .invalidField index (String.ofList field)
  else .invalidJump index (String.ofList field)

/-- The error that the first field at fault of entry `index` gives. -/
def FirstFault (index : Nat) (text : List Char) (e : SourceMapError) : Prop :=
  ∃ k field, FaultAt text k field ∧ (∀ j < k, ∀ field, ¬ FaultAt text j field) ∧
    e = faultOf index k field

theorem FaultAt.field_eq {field' : List Char} (h : FaultAt text k field)
    (h' : FaultAt text k field') : field = field' :=
  Option.some.inj (h.1.symm.trans h'.1)

/-- There is no more than one first fault. -/
theorem FirstFault.eq {err err' : SourceMapError} (h : FirstFault index text err)
    (h' : FirstFault index text err') : err = err' := by
  obtain ⟨k, field, hfault, hfirst, rfl⟩ := h
  obtain ⟨k', field', hfault', hfirst', rfl⟩ := h'
  rcases Nat.lt_trichotomy k k' with hlt | rfl | hgt
  · exact absurd hfault (hfirst' k hlt field)
  · rw [hfault.field_eq hfault']
  · exact absurd hfault' (hfirst k' hgt field')

/-- The field of a number is read unless it is at fault. -/
theorem readNumber_cases (index : Nat) (previous : Int) (text : List Char) (hk : k < 3) :
    let reading := readNumber index previous (some ((text.splitOn ':')[k]?.getD []))
    (∃ n, reading = .ok n) ∧ (∀ field, ¬ FaultAt text k field) ∨
      ∃ field, FaultAt text k field ∧ reading = .error (faultOf index k field) := by
  intro reading
  have hblank (h : (text.splitOn ':')[k]?.getD [] = []) : ∀ field, ¬ FaultAt text k field := by
    rintro field ⟨hfield, hne, -⟩
    rw [hfield] at h
    exact hne h
  cases hfield : (text.splitOn ':')[k]?.getD [] with
  | nil => exact .inl ⟨⟨previous, by simp only [reading, hfield]; rfl⟩, hblank hfield⟩
  | cons c cs =>
    have hthere : (text.splitOn ':')[k]? = some (c :: cs) := by
      cases hopt : (text.splitOn ':')[k]? with
      | none => rw [hopt] at hfield; cases hfield
      | some found => rw [hopt] at hfield; exact congrArg some hfield
    cases hread : readInt (c :: cs) with
    | ok n =>
      refine .inl ⟨⟨n, by simp only [reading, hfield, readNumber, hread]⟩, ?_⟩
      rintro field ⟨hfield', -, ⟨-, hno⟩ | ⟨hthree, -⟩⟩
      · obtain rfl := Option.some.inj (hthere.symm.trans hfield')
        exact hno ⟨n, readInt_eq_ok_iff.1 hread⟩
      · omega
    | error err =>
      refine .inr ⟨c :: cs, ⟨hthere, List.cons_ne_nil _ _, .inl ⟨hk, ?_⟩⟩, ?_⟩
      · rintro ⟨n, hn⟩
        have hok := readInt_eq_ok_iff.2 hn
        rw [hread] at hok
        cases hok
      · simp only [reading, hfield, readNumber, hread]
        rw [faultOf, if_pos hk]

/-- The field of the jump is read unless it is at fault. -/
theorem readJump_cases (index : Nat) (previous : Jump) (text : List Char) :
    let reading := readJump index previous (some ((text.splitOn ':')[3]?.getD []))
    (∃ jump, reading = .ok jump) ∧ (∀ field, ¬ FaultAt text 3 field) ∨
      ∃ field, FaultAt text 3 field ∧ reading = .error (faultOf index 3 field) := by
  intro reading
  cases hopt : (text.splitOn ':')[3]? with
  | none =>
    refine .inl ⟨⟨previous, by simp only [reading, hopt]; rfl⟩, ?_⟩
    rintro field ⟨hfield, -⟩
    rw [hopt] at hfield
    cases hfield
  | some found =>
    have hreading : reading = readJump index previous (some found) := by
      simp only [reading, hopt, Option.getD_some]
    have hletter (jump : Jump) (h : found = [jump.letter]) : ∀ field, ¬ FaultAt text 3 field := by
      rintro field ⟨hfield, -, ⟨hthree, -⟩ | ⟨-, hno⟩⟩
      · omega
      · obtain rfl := Option.some.inj (hopt.symm.trans hfield)
        exact hno jump h
    rw [hreading]
    unfold readJump
    split
    · rename_i h
      cases h
    · rename_i h
      obtain rfl := Option.some.inj h
      refine .inl ⟨⟨previous, rfl⟩, ?_⟩
      rintro field ⟨hfield, hne, -⟩
      exact hne (Option.some.inj (hopt.symm.trans hfield)).symm
    · rename_i h
      exact .inl ⟨⟨.into, rfl⟩, hletter .into (Option.some.inj h)⟩
    · rename_i h
      exact .inl ⟨⟨.out, rfl⟩, hletter .out (Option.some.inj h)⟩
    · rename_i h
      exact .inl ⟨⟨.regular, rfl⟩, hletter .regular (Option.some.inj h)⟩
    · rename_i field hnil hinto hout hregular h
      obtain rfl := Option.some.inj h
      refine .inr ⟨found, ⟨hopt, hnil, .inr ⟨rfl, ?_⟩⟩, rfl⟩
      intro jump hjump
      cases jump with
      | into => exact hinto hjump
      | out => exact hout hjump
      | regular => exact hregular hjump

namespace Entry

/-- Reading an entry either succeeds without any fault or fails with the first one. -/
theorem read_cases (index : Nat) (previous : Entry) (text : List Char) :
    (∃ e, read index previous text = .ok e) ∧ (∀ k field, ¬ FaultAt text k field) ∨
      ∃ err, read index previous text = .error err ∧ FirstFault index text err := by
  rw [read_eq]
  -- the fields are read in turn, so at each one it is known that none before is at fault
  have before0 : ∀ j < 0, ∀ field, ¬ FaultAt text j field := fun j hj => absurd hj j.not_lt_zero
  rcases readNumber_cases index previous.start text (show 0 < 3 by decide) with
    ⟨⟨start, hstart⟩, h0⟩ | ⟨field, hfault, hstart⟩
  case inr => exact .inr ⟨_, by simp only [hstart]; rfl, 0, field, hfault, before0, rfl⟩
  have before1 := Nat.forall_lt_succ_right.2 ⟨before0, h0⟩
  rcases readNumber_cases index previous.length text (show 1 < 3 by decide) with
    ⟨⟨length, hlength⟩, h1⟩ | ⟨field, hfault, hlength⟩
  case inr => exact .inr ⟨_, by simp only [hstart, hlength]; rfl, 1, field, hfault, before1, rfl⟩
  have before2 := Nat.forall_lt_succ_right.2 ⟨before1, h1⟩
  rcases readNumber_cases index previous.file text (show 2 < 3 by decide) with
    ⟨⟨file, hfile⟩, h2⟩ | ⟨field, hfault, hfile⟩
  case inr =>
    exact .inr ⟨_, by simp only [hstart, hlength, hfile]; rfl, 2, field, hfault, before2, rfl⟩
  have before3 := Nat.forall_lt_succ_right.2 ⟨before2, h2⟩
  rcases readJump_cases index previous.jump text with ⟨⟨jump, hjump⟩, h3⟩ | ⟨field, hfault, hjump⟩
  · refine .inl ⟨⟨⟨start, length, file, jump⟩, ?_⟩, ?_⟩
    · simp only [hstart, hlength, hfile, hjump]
      rfl
    intro k field hfault
    rcases hfault.2.2 with ⟨hk, -⟩ | ⟨rfl, -⟩
    · exact before3 k hk field hfault
    · exact h3 field hfault
  · refine .inr ⟨_, ?_, 3, field, hfault, before3, rfl⟩
    simp only [hstart, hlength, hfile, hjump]
    rfl

theorem not_faultAt_of_read (h : read index previous text = .ok e) (k : Nat) (field : List Char) :
    ¬ FaultAt text k field := by
  rcases read_cases index previous text with ⟨-, hnone⟩ | ⟨err, herr, -⟩
  · exact hnone k field
  · rw [h] at herr
    cases herr

theorem firstFault_of_read {err : SourceMapError} (h : read index previous text = .error err) :
    FirstFault index text err := by
  rcases read_cases index previous text with ⟨⟨e, hread⟩, -⟩ | ⟨err', herr, hfirst⟩
  · rw [h] at hread
    cases hread
  · rw [h] at herr
    obtain rfl := Except.error.inj herr
    exact hfirst

end Entry

/-- **Decoding fails at the first entry that has a fault**, with the first fault of that entry. -/
theorem decodeFrom_eq_error_iff {err : SourceMapError} :
    decodeFrom sources index pc code previous texts = .error err ↔
      ∃ before text after, texts = before ++ text :: after ∧
        (∀ t ∈ before, ∀ k field, ¬ FaultAt t k field) ∧
        FirstFault (index + before.length) text err := by
  induction texts generalizing index pc code previous with
  | nil =>
    refine iff_of_false (by simp [decodeFrom]) ?_
    rintro ⟨before, text, after, htexts, -⟩
    cases before <;> cases htexts
  | cons text texts ih =>
    rw [decodeFrom_cons]
    rcases Entry.read_cases index previous text with ⟨⟨entry, hread⟩, hnone⟩ | ⟨err', hread, hfirst⟩
    · -- the entry has no fault, so the first one is behind it
      have hbind : (Entry.read index previous text).bind (fun entry =>
          (decodeFrom sources (index + 1) (pc + strideOf code) (code.drop (strideOf code)) entry
            texts).bind fun rest => .ok (⟨pc, entry.span? sources, entry.jump⟩ :: rest)) =
          .error err ↔ decodeFrom sources (index + 1) (pc + strideOf code)
            (code.drop (strideOf code)) entry texts = .error err := by
        rw [hread]
        change (decodeFrom _ _ _ _ entry texts).bind _ = _ ↔ _
        cases decodeFrom sources (index + 1) (pc + strideOf code) (code.drop (strideOf code)) entry
          texts <;> simp [Except.bind]
      rw [hbind, ih]
      constructor
      · rintro ⟨before, t, after, rfl, hbefore, hfault⟩
        refine ⟨text :: before, t, after, rfl, List.forall_mem_cons.2 ⟨hnone, hbefore⟩, ?_⟩
        rw [List.length_cons, Nat.add_comm before.length, ← Nat.add_assoc]
        exact hfault
      · rintro ⟨before, t, after, htexts, hbefore, hfault⟩
        cases before with
        | nil =>
          obtain ⟨rfl, rfl⟩ := List.cons.inj htexts
          obtain ⟨k, field, hat, -⟩ := hfault
          exact absurd hat (hnone k field)
        | cons first before =>
          obtain ⟨rfl, rfl⟩ := List.cons.inj htexts
          refine ⟨before, t, after, rfl, (List.forall_mem_cons.1 hbefore).2, ?_⟩
          rw [List.length_cons, Nat.add_comm before.length, ← Nat.add_assoc] at hfault
          exact hfault
    · rw [hread]
      change Except.error err' = Except.error err ↔ _
      constructor
      · intro h
        obtain rfl := Except.error.inj h
        exact ⟨[], text, texts, rfl, by simp, hfirst⟩
      · rintro ⟨before, t, after, htexts, hbefore, hfault⟩
        cases before with
        | nil =>
          obtain ⟨rfl, rfl⟩ := List.cons.inj htexts
          rw [hfirst.eq hfault]
        | cons first before =>
          obtain ⟨rfl, rfl⟩ := List.cons.inj htexts
          obtain ⟨k, field, hat, -⟩ := hfirst
          exact absurd hat ((List.forall_mem_cons.1 hbefore).1 k field)

theorem decode_eq_error_iff {map : String} {err : SourceMapError} :
    decode map code sources = .error err ↔
      ∃ before text after, map.toList.splitOn ';' = before ++ text :: after ∧
        (∀ t ∈ before, ∀ k field, ¬ FaultAt t k field) ∧ FirstFault before.length text err := by
  by_cases hmap : map = ""
  · subst hmap
    refine iff_of_false (by simp [decode]) ?_
    rintro ⟨before, text, after, htexts, -, k, field, ⟨hfield, hne, -⟩, -⟩
    -- all there is to an empty text is one blank field
    change [[]] = _ at htexts
    cases before with
    | nil =>
      obtain ⟨rfl, -⟩ := List.cons.inj htexts
      change [[]][k]? = some field at hfield
      cases k with
      | zero => exact hne (Option.some.inj hfield).symm
      | succ k => cases hfield
    | cons first before => cases before <;> cases (List.cons.inj htexts).2
  · have hdecode : decode map code sources =
        decodeFrom sources 0 0 code {} (map.toList.splitOn ';') := by
      rw [decode, if_neg (by simpa using hmap)]
    rw [hdecode, decodeFrom_eq_error_iff]
    simp only [Nat.zero_add]

/-- Where there are faults, there is a first one. -/
theorem exists_firstFault (index : Nat) (h : FaultAt text k field) :
    ∃ err, FirstFault index text err := by
  classical
  have hsome : ∃ k field, FaultAt text k field := ⟨k, field, h⟩
  obtain ⟨first, hfirst⟩ := Nat.find_spec hsome
  refine ⟨_, Nat.find hsome, first, hfirst, fun j hj other hother => ?_, rfl⟩
  exact Nat.find_min hsome hj ⟨other, hother⟩

/-- **Decoding fails if and only if an entry has a fault.** -/
theorem exists_decode_eq_error_iff {map : String} :
    (∃ err, decode map code sources = .error err) ↔
      ∃ entry ∈ map.toList.splitOn ';', ∃ k field, FaultAt entry k field := by
  constructor
  · rintro ⟨err, herr⟩
    obtain ⟨before, entry, after, htexts, -, k, field, hfault, -⟩ := decode_eq_error_iff.1 herr
    refine ⟨entry, ?_, k, field, hfault⟩
    rw [htexts]
    exact List.mem_append_right _ List.mem_cons_self
  · rintro ⟨entry, hentry, k, field, hfault⟩
    classical
    -- the first entry that has a fault
    have hsome : ((map.toList.splitOn ';').find? fun t => ∃ k field, FaultAt t k field).isSome := by
      rw [List.find?_isSome]
      exact ⟨entry, hentry, decide_eq_true ⟨k, field, hfault⟩⟩
    obtain ⟨first, hfirst⟩ := Option.isSome_iff_exists.1 hsome
    obtain ⟨hat, before, after, htexts, hbefore⟩ := List.find?_eq_some_iff_append.1 hfirst
    obtain ⟨k', field', hfault'⟩ := of_decide_eq_true hat
    obtain ⟨err, herr⟩ := exists_firstFault before.length hfault'
    refine ⟨err, decode_eq_error_iff.2 ⟨before, first, after, htexts, ?_, herr⟩⟩
    intro t ht j other hother
    have hnone := hbefore t ht
    rw [decide_eq_true ⟨j, other, hother⟩] at hnone
    cases hnone

/-! ## Compression is transparent -/

/--
**A compressed map has the mappings of the one that spells all fields.** The entries have numbers of
64 bits, and what is left of them after compression is not empty. A mapping has the jump of its
entry; it has no place exactly if a number of the entry is negative or the file is not known, and
otherwise the file, the offset and the length that the entry says. Decoding a text fails exactly if
an entry has a field at fault, and the error names the first such entry.
-/
theorem decode_compressed (code : Bytes) (sources : Sources) :
    (∀ entries texts, (∀ e ∈ entries, e.InRange) → AreTexts {} entries texts →
      [';'].intercalate texts ≠ [] →
      ∃ map, decode (String.ofList ([';'].intercalate texts)) code sources = .ok map ∧
        decode (explicit entries) code sources = .ok map ∧ map.length = entries.length ∧
        ∀ (i : Nat) (e : Entry) (m : Mapping), entries[i]? = some e → map[i]? = some m →
          m.jump = e.jump ∧
          (m.span = none ↔
            e.start < 0 ∨ e.length < 0 ∨ e.file < 0 ∨ sources.get? e.file.toNat = none) ∧
          ∀ span : Span, m.span = some span → (span.file : Int) = e.file ∧
            (span.offset : Int) = e.start ∧ (span.length : Int) = e.length) ∧
    ∀ text : String,
      ((∃ err, decode text code sources = .error err) ↔
        ∃ entry ∈ text.toList.splitOn ';', ∃ k field, FaultAt entry k field) ∧
      ∀ err, decode text code sources = .error err ↔
        ∃ before entry after, text.toList.splitOn ';' = before ++ entry :: after ∧
          (∀ t ∈ before, ∀ k field, ¬ FaultAt t k field) ∧ FirstFault before.length entry err := by
  refine ⟨fun entries texts hentries htexts hne => ?_,
    fun text => ⟨exists_decode_eq_error_iff, fun err => decode_eq_error_iff⟩⟩
  have hexplicit : [';'].intercalate (entries.map Entry.explicit) ≠ [] := by
    cases htexts with
    | nil => exact absurd rfl hne
    | @cons _ e rest =>
      intro hnil
      have hfirst := e.explicit_ne_nil
      cases rest with
      | nil => exact hfirst (by simpa using hnil)
      | cons next others =>
        rw [List.map_cons, List.map_cons, List.intercalate_cons_cons] at hnil
        simp at hnil
  refine ⟨mappingsOf sources 0 code entries, decode_of_areTexts htexts hentries hne code sources,
    decode_of_areTexts (areTexts_explicit {} entries) hentries hexplicit code sources,
    length_mappingsOf sources 0 code entries, ?_⟩
  intro i e m he hm
  obtain ⟨hspan, hjump⟩ := eq_of_getElem?_mappingsOf he hm
  refine ⟨hjump, ?_, fun span hsome => ?_⟩
  · rw [hspan]
    exact e.span?_eq_none_iff sources
  · rw [hspan] at hsome
    exact Entry.range_of_span? hsome

/--
Fields are inherited over several entries, one of them blank as a whole; further fields are passed
over. In the other text the third entry is the first at fault.
-/
theorem decode_compressed_inherits :
    let entries : List Entry := [⟨0, 44, 0, .regular⟩, ⟨0, 44, 0, .regular⟩, ⟨15, 44, 0, .into⟩]
    let texts : List (List Char) :=
      [['0', ':', '4', '4', ':', '0', ':', '-', ':', '7'], [], ['1', '5', ':', ':', ':', 'i']]
    (∀ e ∈ entries, e.InRange) ∧ AreTexts {} entries texts ∧ [';'].intercalate texts ≠ [] ∧
      (∃ map, decode (String.ofList ([';'].intercalate texts)) [] {} = .ok map ∧
        decode (explicit entries) [] {} = .ok map ∧ map.length = 3) ∧
      decode "0:1;;x:y" [] {} = .error (.invalidField 2 "x") := by
  intro entries texts
  have hrange : ∀ e ∈ entries, e.InRange := by
    simp only [entries, List.forall_mem_cons]
    exact ⟨⟨by decide, by decide, by decide⟩, ⟨by decide, by decide, by decide⟩,
      ⟨by decide, by decide, by decide⟩, by simp⟩
  have h0 : SpellsInt ['0'] 0 := @SpellsInt.plain _ 0 ⟨by simp, by simp, rfl⟩
  have h44 : SpellsInt ['4', '4'] 44 := @SpellsInt.plain _ 44 ⟨by simp, by simp, rfl⟩
  have h15 : SpellsInt ['1', '5'] 15 := @SpellsInt.plain _ 15 ⟨by simp, by simp, rfl⟩
  have htexts : AreTexts {} entries texts :=
    .cons (@Entry.IsText.full _ _ ['0'] ['4', '4'] ['0'] ['-'] [['7']] (.inr h0) (.inr h44)
        (.inr h0) (.inr rfl) (by decide))
      (.cons (.dropped (.dropped (.dropped (@Entry.IsText.full _ _ [] [] [] [] [] (.inl ⟨rfl, rfl⟩)
          (.inl ⟨rfl, rfl⟩) (.inl ⟨rfl, rfl⟩) (.inl ⟨rfl, rfl⟩) (by simp)))))
        (.cons (@Entry.IsText.full _ _ ['1', '5'] [] [] ['i'] [] (.inr h15) (.inl ⟨rfl, rfl⟩)
          (.inl ⟨rfl, rfl⟩) (.inr rfl) (by simp)) .nil))
  have hne : [';'].intercalate texts ≠ [] := by decide
  obtain ⟨hmaps, herrors⟩ := decode_compressed [] {}
  obtain ⟨map, hcompressed, hexplicit, hlength, -⟩ := hmaps entries texts hrange htexts hne
  refine ⟨hrange, htexts, hne, ⟨map, hcompressed, hexplicit, hlength⟩, ?_⟩
  have hnone : ∀ t ∈ [['0', ':', '1'], []], ∀ k field, ¬ FaultAt t k field := by
    simp only [List.forall_mem_cons]
    refine ⟨?_, ?_, by simp⟩
    · exact Entry.not_faultAt_of_read
        (rfl : Entry.read 0 {} ['0', ':', '1'] = .ok ⟨0, 1, -1, .regular⟩)
    · exact Entry.not_faultAt_of_read (rfl : Entry.read 0 {} [] = .ok {})
  have hfirst : FirstFault 2 ['x', ':', 'y'] (.invalidField 2 "x") :=
    Entry.firstFault_of_read (rfl : Entry.read 2 {} ['x', ':', 'y'] = .error (.invalidField 2 "x"))
  exact ((herrors _).2 _).2
    ⟨[['0', ':', '1'], []], ['x', ':', 'y'], [], by decide +kernel, hnone, hfirst⟩

end Solscope.SourceMap
