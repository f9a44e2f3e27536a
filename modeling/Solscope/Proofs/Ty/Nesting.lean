import Solscope.Proofs.Text.Integer
import Solscope.Proofs.Ty.Normalization

/-!
# Arrows and brackets

The descriptor of a mapping is cut at the first arrow outside of any round brackets. Which arrow
that is depends on the brackets and arrows of the text only, not on what stands between them. Blanks
and words about data locations bring none about and take none away.

* `Descriptor.marks`: the brackets and arrows of a text.
* `Descriptor.marks_normalize`, `Descriptor.marks_trim`: **normalizing and trimming leave them
  alone**.
* `Descriptor.nestingAfter?`: how many brackets are open behind them, if no arrow is outside.
* `Descriptor.cutArrow?_eq_some_iff`: **where a text is cut**.
* `Descriptor.mapping?_eq_some_iff`, `Descriptor.array?_eq_some_iff`: what mappings and arrays are
  made of.
-/

namespace Solscope.Descriptor

/-- What mappings are cut by: round brackets and arrows. -/
inductive Mark where
  | open
  | close
  | arrow
deriving DecidableEq

/-- The brackets and arrows of a text. -/
def marks : List Char → List Mark
  | [] => []
  | '(' :: cs => .open :: marks cs
  | ')' :: cs => .close :: marks cs
  | '=' :: '>' :: cs => .arrow :: marks cs
  | _ :: cs => marks cs

variable {c : Char} {left right cs word : List Char}

/-! ## Marks of longer texts -/

/-- A character that starts no bracket and no arrow. -/
theorem marks_cons (hopen : c ≠ '(') (hclose : c ≠ ')') (harrow : c = '=' → cs.head? ≠ some '>') :
    marks (c :: cs) = marks cs := by
  refine marks.eq_5 c cs hopen hclose fun rest hc hcs => ?_
  exact harrow hc (by rw [hcs]; rfl)

/-- Where no arrow starts, none does after more is added that does not go on with one. -/
theorem head?_append_ne (harrow : ∀ rest, c = '=' → left = '>' :: rest → False)
    (h : right.head? ≠ some '>') (hc : c = '=') : (left ++ right).head? ≠ some '>' := by
  cases left with
  | nil => exact h
  | cons d left =>
    intro hd
    exact harrow left hc (by rw [Option.some.inj hd])

/-- Two texts have the marks of both, unless an arrow goes across. -/
theorem marks_append (left : List Char) (h : right.head? ≠ some '>') :
    marks (left ++ right) = marks left ++ marks right := by
  -- one mark after the other; what is no mark is the last case
  induction left using marks.induct with
  | case1 => rfl
  | case2 cs ih => exact congrArg _ ih
  | case3 cs ih => exact congrArg _ ih
  | case4 cs ih => exact congrArg _ ih
  | case5 c cs hopen hclose harrow ih =>
    rw [List.cons_append, marks_cons hopen hclose (head?_append_ne harrow h), ih,
      marks.eq_5 c cs hopen hclose harrow]

theorem marks_arrow (left right : List Char) :
    marks (left ++ '=' :: '>' :: right) = marks left ++ .arrow :: marks right :=
  marks_append left (by simp)

/-- A text without round brackets and equality signs has no marks. -/
theorem marks_eq_nil (h : ∀ c ∈ cs, c ≠ '(' ∧ c ≠ ')' ∧ c ≠ '=') : marks cs = [] := by
  induction cs with
  | nil => rfl
  | cons c cs ih =>
    obtain ⟨⟨hopen, hclose, harrow⟩, hcs⟩ := List.forall_mem_cons.1 h
    rw [marks_cons hopen hclose fun hc => absurd hc harrow]
    exact ih hcs

theorem marks_cons_blank (hc : Text.isBlank c = true) (cs : List Char) :
    marks (c :: cs) = marks cs := by
  have hne : ∀ d, Text.isBlank d = false → c ≠ d := by
    rintro d hd rfl
    rw [hc] at hd
    cases hd
  exact marks_cons (hne _ (by decide)) (hne _ (by decide)) fun heq => absurd heq (hne _ (by decide))

/-- Names have no marks. -/
theorem marks_of_isNameChar (h : ∀ c ∈ cs, Text.isNameChar c = true) : marks cs = [] := by
  refine marks_eq_nil fun c hc => ⟨?_, ?_, ?_⟩
  all_goals
    rintro rfl
    exact absurd (h _ hc) (by decide)

/-- Sizes have no marks. -/
theorem marks_of_readSize {n : Nat} (h : Text.readSize cs = .ok n) : marks cs = [] := by
  have hdigits : ∀ ds, Text.SpellsNat ds n → marks ds = [] := by
    rintro ds ⟨-, hds, -⟩
    refine marks_eq_nil fun c hc => ⟨?_, ?_, ?_⟩
    all_goals
      rintro rfl
      exact absurd (hds _ hc) (by decide)
  rcases (Text.readNat_eq_ok_iff.1 h).1 with hspells | ⟨rest, rfl, hspells⟩
  · exact hdigits cs hspells
  · exact hdigits rest hspells

/-- Built-in names have no marks. -/
theorem marks_of_elementary? {t : Ty} (h : elementary? cs = some t) : marks cs = [] := by
  have hname : ∀ name : String, marks name.toList = [] → String.ofList cs = name →
      marks cs = [] := by
    rintro _ hmarks rfl
    rwa [String.toList_ofList] at hmarks
  have hbits : ∀ {digits n}, integerBytes? digits = some n → marks digits = [] := by
    intro digits n h
    obtain ⟨bits, hread, -⟩ := Option.bind_eq_some_iff.1 h
    exact marks_of_readSize (Text.eq_ok_of_toOption hread)
  unfold elementary? at h
  split at h
  all_goals try
    rename_i heq
    exact hname _ (by decide) heq
  split at h
  · rename_i bits hafter
    obtain ⟨n, hn, -⟩ := Option.map_eq_some_iff.1 h
    rw [Text.after?_eq_some_iff.1 hafter]
    change marks bits = []
    exact hbits hn
  split at h
  · rename_i bits hafter
    obtain ⟨n, hn, -⟩ := Option.map_eq_some_iff.1 h
    rw [Text.after?_eq_some_iff.1 hafter]
    change marks bits = []
    exact hbits hn
  split at h
  · rename_i digits hafter
    obtain ⟨n, hn, -⟩ := Option.map_eq_some_iff.1 h
    obtain ⟨length, hread, -⟩ := Option.bind_eq_some_iff.1 hn
    rw [Text.after?_eq_some_iff.1 hafter]
    change marks digits = []
    exact marks_of_readSize (Text.eq_ok_of_toOption hread)
  · cases h

theorem marks_mapping (left right : List Char) :
    marks ("mapping(".toList ++ (left ++ '=' :: '>' :: right) ++ [')']) =
      .open :: (marks left ++ .arrow :: marks right) ++ [.close] := by
  have hinner : marks ((left ++ '=' :: '>' :: right) ++ [')']) =
      (marks left ++ .arrow :: marks right) ++ [.close] := by
    rw [marks_append _ (by simp), marks_arrow]
    rfl
  rw [List.append_assoc]
  exact congrArg (Mark.open :: ·) hinner

theorem marks_array (element size : List Char) :
    marks (element ++ '[' :: size ++ [']']) = marks element ++ marks size := by
  have hclose : marks (size ++ [']']) = marks size := by
    rw [marks_append _ (by simp)]
    exact List.append_nil _
  rw [List.append_assoc, marks_append _ (by simp), List.cons_append]
  exact congrArg (marks element ++ ·) hclose

/-! ## Normalizing and trimming -/

/-- The marks of a text are those of its words. -/
theorem flatMap_marks_words (cs : List Char) : (Text.words cs).flatMap marks = marks cs := by
  have hfrom : ∀ (cs start : List Char),
      (Text.wordsFrom start cs).flatMap marks = marks (start.reverse ++ cs) := by
    intro cs
    induction cs with
    | nil =>
      intro start
      rw [Text.wordsFrom, List.append_nil]
      split
      · rename_i hstart
        rw [List.isEmpty_iff.1 hstart]
        rfl
      · simp
    | cons c cs ih =>
      intro start
      rw [Text.wordsFrom]
      split
      · rename_i hc
        have hhead : (c :: cs).head? ≠ some '>' := by
          intro hhead
          obtain rfl := Option.some.inj hhead
          exact absurd hc (by decide)
        rw [marks_append _ hhead, marks_cons_blank hc]
        split
        · rename_i hstart
          rw [List.isEmpty_iff.1 hstart]
          exact ih []
        · rw [List.flatMap_cons, ih]
          rfl
      · rw [ih, List.reverse_cons, List.append_assoc, List.singleton_append]
  exact hfrom cs []

theorem marks_congr {other : List Char} (h : Text.words cs = Text.words other) :
    marks cs = marks other := by
  rw [← flatMap_marks_words, h, flatMap_marks_words]

theorem marks_trim (cs : List Char) : marks (Text.trim cs) = marks cs :=
  marks_congr (Text.words_trim cs)

theorem head?_ne_of_startsWithBracket (h : startsWithBracket cs = true) : cs.head? ≠ some '>' := by
  unfold startsWithBracket at h
  split at h
  · simp
  · simp
  · cases h

/-- Adding a word adds its marks, whether it is dropped, shortened or kept. -/
theorem marks_addWord (out word : List Char) :
    marks (addWord out word) = marks out ++ marks word := by
  have hnone : ∀ location ∈ locationWords, marks location = [] := by decide
  unfold addWord
  split
  · rename_i hlocation
    rw [hnone word hlocation, List.append_nil]
  split
  · rename_i rest hglued
    obtain ⟨location, hlocation, rfl, hbracket⟩ := exists_of_glued? hglued
    have hhead := head?_ne_of_startsWithBracket hbracket
    rw [marks_append _ hhead, marks_append _ hhead, hnone location hlocation, List.nil_append]
  · split
    · rename_i hempty
      rw [List.isEmpty_iff.1 hempty]
      rfl
    · rw [marks_append _ (by simp), marks_cons_blank (by decide)]

theorem marks_normalize (cs : List Char) : marks (normalize cs) = marks cs := by
  have hfold : ∀ (ws : List (List Char)) (out : List Char),
      marks (ws.foldl addWord out) = marks out ++ ws.flatMap marks := by
    intro ws
    induction ws with
    | nil => simp
    | cons w ws ih =>
      intro out
      rw [List.foldl_cons, ih, marks_addWord, List.flatMap_cons, List.append_assoc]
  rw [normalize, hfold, flatMap_marks_words]
  rfl

/-! ## Where a mapping is cut -/

/--
How many brackets are open behind some marks, with `nesting` in front of them. There is no answer if
an arrow is met where none is open.
-/
def nestingAfter? : (nesting : Nat) → List Mark → Option Nat
  | n, [] => some n
  | n, .open :: ms => nestingAfter? (n + 1) ms
  | n, .close :: ms => nestingAfter? (n - 1) ms
  | 0, .arrow :: _ => none
  | n + 1, .arrow :: ms => nestingAfter? (n + 1) ms

theorem cutArrow?_open (n : Nat) (cs : List Char) :
    cutArrow? n ('(' :: cs) = (cutArrow? (n + 1) cs).map fun p => ('(' :: p.1, p.2) := rfl

theorem cutArrow?_close (n : Nat) (cs : List Char) :
    cutArrow? n (')' :: cs) = (cutArrow? (n - 1) cs).map fun p => (')' :: p.1, p.2) := by
  rcases n with _ | _ | n <;> rfl

theorem cutArrow?_other {n : Nat} (hopen : c ≠ '(') (hclose : c ≠ ')')
    (harrow : n = 0 → c = '=' → cs.head? ≠ some '>') :
    cutArrow? n (c :: cs) = (cutArrow? n cs).map fun p => (c :: p.1, p.2) := by
  conv_lhs => unfold cutArrow?
  simp only [hopen, hclose, if_false]
  split
  · exact absurd rfl (harrow rfl rfl)
  · rfl

theorem exists_of_map_cons {cut : Option (List Char × List Char)}
    (h : (cut.map fun p => (c :: p.1, p.2)) = some (left, right)) :
    ∃ rest, left = c :: rest ∧ cut = some (rest, right) := by
  obtain ⟨⟨rest, _⟩, hcut, heq⟩ := Option.map_eq_some_iff.1 h
  obtain ⟨rfl, rfl⟩ := Prod.mk.inj heq
  exact ⟨rest, rfl, hcut⟩

/-- A text is cut at an arrow, if the text in front of it leaves no bracket open. -/
theorem cutArrow?_append {n : Nat} (h : nestingAfter? n (marks left) = some 0)
    (right : List Char) : cutArrow? n (left ++ '=' :: '>' :: right) = some (left, right) := by
  induction left using marks.induct generalizing n with
  | case1 =>
    obtain rfl := Option.some.inj h
    rfl
  | case2 cs ih => rw [List.cons_append, cutArrow?_open, ih h]; rfl
  | case3 cs ih => rw [List.cons_append, cutArrow?_close, ih h]; rfl
  | case4 cs ih =>
    -- an arrow in front of the cut is inside brackets
    cases n with
    | zero => cases h
    | succ n =>
      rw [List.cons_append, List.cons_append, cutArrow?_other (by decide) (by decide) (by simp),
        cutArrow?_other (by decide) (by decide) (by simp), ih h]
      rfl
  | case5 c cs hopen hclose harrow ih =>
    rw [marks.eq_5 c cs hopen hclose harrow] at h
    have hcs : c = '=' → (cs ++ '=' :: '>' :: right).head? ≠ some '>' :=
      head?_append_ne harrow (by simp)
    rw [List.cons_append, cutArrow?_other hopen hclose fun _ => hcs, ih h]
    rfl

/-- **Where a text is cut**: at the first arrow before which all brackets are closed. -/
theorem cutArrow?_eq_some_iff {n : Nat} : cutArrow? n cs = some (left, right) ↔
    cs = left ++ '=' :: '>' :: right ∧ nestingAfter? n (marks left) = some 0 := by
  refine ⟨fun h => ?_, fun ⟨hcs, h⟩ => hcs ▸ cutArrow?_append h right⟩
  induction cs generalizing n left with
  | nil => cases h
  | cons c cs ih =>
    by_cases hopen : c = '('
    · subst hopen
      rw [cutArrow?_open] at h
      obtain ⟨left, rfl, hcut⟩ := exists_of_map_cons h
      obtain ⟨rfl, hnesting⟩ := ih hcut
      exact ⟨rfl, hnesting⟩
    by_cases hclose : c = ')'
    · subst hclose
      rw [cutArrow?_close] at h
      obtain ⟨left, rfl, hcut⟩ := exists_of_map_cons h
      obtain ⟨rfl, hnesting⟩ := ih hcut
      exact ⟨rfl, hnesting⟩
    by_cases hhere : n = 0 ∧ c = '=' ∧ cs.head? = some '>'
    · obtain ⟨rfl, rfl, hhead⟩ := hhere
      obtain ⟨rest, rfl⟩ := List.head?_eq_some_iff.1 hhead
      obtain ⟨rfl, rfl⟩ := Prod.mk.inj (Option.some.inj h)
      exact ⟨rfl, rfl⟩
    · rw [cutArrow?_other hopen hclose fun hn hc hhead => hhere ⟨hn, hc, hhead⟩] at h
      obtain ⟨left, rfl, hcut⟩ := exists_of_map_cons h
      obtain ⟨rfl, hnesting⟩ := ih hcut
      refine ⟨rfl, ?_⟩
      by_cases harrow : c = '=' ∧ left.head? = some '>'
      · -- an arrow that is passed over is inside brackets
        obtain ⟨rfl, hhead⟩ := harrow
        obtain ⟨rest, rfl⟩ := List.head?_eq_some_iff.1 hhead
        cases n with
        | zero => exact absurd ⟨rfl, rfl, rfl⟩ hhere
        | succ n => exact hnesting
      · rw [marks_cons hopen hclose fun hc hhead => harrow ⟨hc, hhead⟩]
        exact hnesting

/-! ## Taking mappings and arrays apart -/

theorem mapping?_eq_some_iff {descriptor key value : List Char} :
    mapping? descriptor = some (key, value) ↔ ∃ left right,
      descriptor = "mapping(".toList ++ (left ++ '=' :: '>' :: right) ++ [')'] ∧
        nestingAfter? 0 (marks left) = some 0 ∧ Text.trim left = key ∧ Text.trim right = value := by
  unfold mapping?
  simp only [Option.bind_eq_bind, Option.bind_eq_some_iff, Text.after?_eq_some_iff,
    Text.before?_eq_some_iff]
  constructor
  · rintro ⟨_, rfl, inner, rfl, ⟨left, right⟩, hcut, heq⟩
    obtain ⟨rfl, rfl⟩ := Prod.mk.inj (Option.some.inj heq)
    obtain ⟨rfl, hnesting⟩ := cutArrow?_eq_some_iff.1 hcut
    exact ⟨left, right, (List.append_assoc ..).symm, hnesting, rfl, rfl⟩
  · rintro ⟨left, right, rfl, hnesting, rfl, rfl⟩
    exact ⟨_, List.append_assoc .., _, rfl, (left, right),
      cutArrow?_eq_some_iff.2 ⟨rfl, hnesting⟩, rfl⟩

theorem array?_eq_some_iff {descriptor element size : List Char} :
    array? descriptor = some (element, size) ↔ ∃ inner,
      descriptor = element ++ '[' :: inner ++ [']'] ∧ '[' ∉ inner ∧ Text.trim inner = size := by
  unfold array?
  simp only [Option.bind_eq_bind, Option.bind_eq_some_iff, Text.before?_eq_some_iff]
  constructor
  · rintro ⟨_, rfl, ⟨left, inner⟩, hcut, heq⟩
    obtain ⟨rfl, rfl⟩ := Prod.mk.inj (Option.some.inj heq)
    obtain ⟨rfl, hinner⟩ := Text.cutLast?_eq_some_iff.1 hcut
    exact ⟨inner, rfl, hinner, rfl⟩
  · rintro ⟨inner, rfl, hinner, rfl⟩
    exact ⟨_, rfl, (element, inner), Text.cutLast?_eq_some_iff.2 ⟨rfl, hinner⟩, rfl⟩

/-- What ends in a square bracket is no mapping. -/
theorem mapping?_eq_none_of_bracket (cs : List Char) : mapping? (cs ++ [']']) = none := by
  rw [Option.eq_none_iff_forall_ne_some]
  rintro ⟨key, value⟩ h
  obtain ⟨left, right, heq, -⟩ := mapping?_eq_some_iff.1 h
  have hlast := (List.append_inj' heq rfl).2
  cases hlast

/-- What has no round bracket is no mapping. -/
theorem mapping?_eq_none (h : '(' ∉ cs) : mapping? cs = none := by
  rw [Option.eq_none_iff_forall_ne_some]
  rintro ⟨key, value⟩ hcut
  obtain ⟨left, right, rfl, -⟩ := mapping?_eq_some_iff.1 hcut
  simp at h

/-- What has no square bracket is no array. -/
theorem array?_eq_none (h : ']' ∉ cs) : array? cs = none := by
  rw [Option.eq_none_iff_forall_ne_some]
  rintro ⟨element, size⟩ hcut
  obtain ⟨inner, rfl, -⟩ := array?_eq_some_iff.1 hcut
  simp at h

/-- Something without brackets in front belongs to the elements. -/
theorem array?_append {start : List Char} (hopen : '[' ∉ start) (cs : List Char) :
    array? (start ++ cs) = (array? cs).map fun p => (start ++ p.1, p.2) := by
  refine Option.ext fun ⟨element, size⟩ => ?_
  simp only [Option.map_eq_some_iff, Prod.mk.injEq, Prod.exists, array?_eq_some_iff]
  constructor
  · rintro ⟨inner, heq, hinner, hsize⟩
    rw [List.append_assoc] at heq
    -- the bracket that opens is behind the start
    rcases List.append_eq_append_iff.1 heq with ⟨more, rfl, hmore⟩ | ⟨more, rfl, hmore⟩
    · exact ⟨more, size, ⟨inner, by rw [hmore, List.append_assoc], hinner, hsize⟩, rfl, rfl⟩
    · cases more with
      | nil => exact ⟨[], size, ⟨inner, by simpa using hmore.symm, hinner, hsize⟩, by simp, rfl⟩
      | cons c more =>
        obtain ⟨rfl, -⟩ := List.cons.inj hmore
        simp at hopen
  · rintro ⟨element, size, ⟨inner, rfl, hinner, rfl⟩, rfl, rfl⟩
    exact ⟨inner, by simp, hinner, rfl⟩

end Solscope.Descriptor
