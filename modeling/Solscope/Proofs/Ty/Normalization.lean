import Mathlib.Data.List.Basic
import Solscope.Proofs.Text.Words

/-!
# Normalized descriptors

A descriptor is normalized word by word: words about data locations are dropped, and what follows
one of them with a bracket is added to the word before. This might bring a new word about locations
about, or a new one with a bracket after it. It does not: what is added starts with a bracket, and
no word about locations has one.

* `Descriptor.IsSettled`: a word that is neither dropped nor shortened.
* `Descriptor.IsSettled.append`: **settled words stay settled** where something with a bracket is
  added to them.
* `Descriptor.IsNormal`: a text of settled words with single blanks between.
* `Descriptor.normalize_eq_self_iff`: just these texts are normalized already.
* `Descriptor.normalize_ignores_locations`: **normalizing twice is normalizing once**, no location
  is left, and one more makes no difference.
-/

namespace Solscope.Descriptor

variable {word rest out text : List Char} {ws : List (List Char)}

/-! ## Words -/

/-- A bracket at the start of a text that no word about locations has. -/
theorem exists_of_startsWithBracket (h : startsWithBracket rest = true) :
    ∃ b tail, rest = b :: tail ∧ ∀ location ∈ locationWords, b ∉ location := by
  unfold startsWithBracket at h
  split at h
  · exact ⟨'[', _, rfl, by decide⟩
  · exact ⟨')', _, rfl, by decide⟩
  · cases h

/-- What is left of a word about locations with a bracket after it. -/
theorem exists_of_glued? (h : glued? word = some rest) :
    ∃ location ∈ locationWords, word = location ++ rest ∧ startsWithBracket rest = true := by
  obtain ⟨location, hlocation, hfilter⟩ := List.exists_of_findSome?_eq_some h
  obtain ⟨hcut, hbracket⟩ := Option.filter_eq_some_iff.1 hfilter
  exact ⟨location, hlocation, Text.after?_eq_some_iff.1 hcut, hbracket⟩

theorem glued?_eq_none_iff : glued? word = none ↔
    ∀ location ∈ locationWords, ∀ rest, word = location ++ rest →
      startsWithBracket rest = false := by
  unfold glued?
  rw [List.findSome?_eq_none_iff]
  refine forall₂_congr fun location _ => ?_
  rw [Option.filter_eq_none_iff]
  refine forall_congr' fun rest => ?_
  rw [← Text.after?_eq_some_iff, Bool.not_eq_true]

/-- A word that normalizing leaves alone: none about locations, nor one with a bracket after it. -/
structure IsSettled (word : List Char) : Prop where
  ne_nil : word ≠ []
  not_blank : ∀ c ∈ word, Text.isBlank c = false
  not_location : word ∉ locationWords
  not_glued : ∀ location ∈ locationWords, ∀ rest, word = location ++ rest →
    startsWithBracket rest = false

namespace IsSettled

theorem glued? (h : IsSettled word) : glued? word = none := glued?_eq_none_iff.2 h.not_glued

/-- A word that starts with a bracket is settled. -/
theorem of_bracket (hrest : startsWithBracket rest = true)
    (hblank : ∀ c ∈ rest, Text.isBlank c = false) : IsSettled rest := by
  obtain ⟨b, tail, rfl, hb⟩ := exists_of_startsWithBracket hrest
  refine ⟨by simp, hblank, fun hmem => hb _ hmem List.mem_cons_self, ?_⟩
  intro location hlocation after hafter
  -- a word about locations has a first letter, which is no bracket
  cases location with
  | nil => exact absurd hlocation (by decide)
  | cons c location =>
    obtain ⟨rfl, -⟩ := List.cons.inj hafter
    exact absurd List.mem_cons_self (hb _ hlocation)

/-- **Settled words stay settled** where something that starts with a bracket is added to them. -/
theorem append (h : IsSettled word) (hrest : startsWithBracket rest = true)
    (hblank : ∀ c ∈ rest, Text.isBlank c = false) : IsSettled (word ++ rest) := by
  obtain ⟨b, tail, rfl, hb⟩ := exists_of_startsWithBracket hrest
  refine ⟨by simp, fun c hc => ?_, fun hmem => hb _ hmem (by simp), ?_⟩
  · rcases List.mem_append.1 hc with hc | hc
    · exact h.not_blank c hc
    · exact hblank c hc
  intro location hlocation after hafter
  by_contra hglued
  rw [Bool.not_eq_false] at hglued
  -- the word about locations ends in the old word, or goes on behind it
  rcases List.append_eq_append_iff.1 hafter with ⟨more, rfl, hmore⟩ | ⟨more, rfl, rfl⟩
  · cases more with
    | nil => exact h.not_location (by simpa using hlocation)
    | cons c more =>
      obtain ⟨rfl, -⟩ := List.cons.inj hmore
      exact hb _ hlocation (by simp)
  · cases more with
    | nil => exact h.not_location (by simpa using hlocation)
    | cons c more =>
      have hopen : startsWithBracket (c :: more) = true := by
        unfold startsWithBracket at hglued ⊢
        split at hglued <;> simp_all
      rw [h.not_glued location hlocation _ rfl] at hopen
      cases hopen

end IsSettled

/-! ## Texts -/

/-- A text of settled words with single blanks between. -/
def IsNormal (text : List Char) : Prop := ∃ ws, text = Text.joined ws ∧ ∀ w ∈ ws, IsSettled w

namespace IsNormal

theorem words (h : IsNormal text) :
    text = Text.joined (Text.words text) ∧ ∀ w ∈ Text.words text, IsSettled w := by
  obtain ⟨ws, rfl, hws⟩ := h
  rw [Text.words_joined fun w hw => ⟨(hws w hw).ne_nil, (hws w hw).not_blank⟩]
  exact ⟨rfl, hws⟩

/-- Something that starts with a bracket may be added to the last word. -/
theorem append (h : IsNormal out) (hrest : startsWithBracket rest = true)
    (hblank : ∀ c ∈ rest, Text.isBlank c = false) : IsNormal (out ++ rest) := by
  obtain ⟨ws, rfl, hws⟩ := h
  rcases List.eq_nil_or_concat ws with rfl | ⟨front, last, rfl⟩
  · refine ⟨[rest], rfl, fun w hw => ?_⟩
    obtain rfl := List.mem_singleton.1 hw
    exact .of_bracket hrest hblank
  · rw [List.concat_eq_append] at hws ⊢
    refine ⟨front ++ [last ++ rest], ?_, fun w hw => ?_⟩
    · rw [Text.joined_concat, Text.joined_concat, Text.joinWord, Text.joinWord]
      split
      · rfl
      · rw [List.append_assoc, List.cons_append]
    · rcases List.mem_append.1 hw with hw | hw
      · exact hws w (List.mem_append_left _ hw)
      · obtain rfl := List.mem_singleton.1 hw
        exact (hws last (by simp)).append hrest hblank

/-- A settled word may be added. -/
theorem joinWord (h : IsNormal out) (hword : IsSettled word) :
    IsNormal (Text.joinWord out word) := by
  obtain ⟨ws, rfl, hws⟩ := h
  refine ⟨ws ++ [word], (Text.joined_concat ws word).symm, fun w hw => ?_⟩
  rcases List.mem_append.1 hw with hw | hw
  · exact hws w hw
  · obtain rfl := List.mem_singleton.1 hw
    exact hword

/-- Adding one more word of a descriptor, as normalizing does. -/
theorem addWord (h : IsNormal out) (hne : word ≠ [])
    (hblank : ∀ c ∈ word, Text.isBlank c = false) : IsNormal (addWord out word) := by
  unfold Descriptor.addWord
  split
  · exact h
  rename_i hlocation
  split
  · rename_i rest hglued
    obtain ⟨location, -, rfl, hbracket⟩ := exists_of_glued? hglued
    exact h.append hbracket fun c hc => hblank c (List.mem_append_right _ hc)
  · rename_i hglued
    exact h.joinWord ⟨hne, hblank, hlocation, glued?_eq_none_iff.1 hglued⟩

end IsNormal

theorem isNormal_foldl_addWord (hout : IsNormal out)
    (hws : ∀ w ∈ ws, w ≠ [] ∧ ∀ c ∈ w, Text.isBlank c = false) :
    IsNormal (ws.foldl addWord out) := by
  induction ws generalizing out with
  | nil => exact hout
  | cons w ws ih =>
    obtain ⟨⟨hne, hblank⟩, hrest⟩ := List.forall_mem_cons.1 hws
    exact ih (hout.addWord hne hblank) hrest

theorem isNormal_normalize (text : List Char) : IsNormal (normalize text) :=
  isNormal_foldl_addWord ⟨[], rfl, by simp⟩ fun _ hw =>
    ⟨Text.ne_nil_of_mem_words hw, fun _ hc => Text.isBlank_of_mem_words hw hc⟩

/-- A settled word is added as it is. -/
theorem addWord_of_isSettled (h : IsSettled word) (out : List Char) :
    addWord out word = Text.joinWord out word := by
  rw [addWord, if_neg h.not_location, h.glued?]
  rfl

/-- **Texts of settled words are normalized already**, and no others are. -/
theorem normalize_eq_self_iff : normalize text = text ↔ IsNormal text := by
  refine ⟨fun h => h ▸ isNormal_normalize text, fun h => ?_⟩
  obtain ⟨hjoined, hsettled⟩ := h.words
  have hfold : normalize text = Text.joined (Text.words text) :=
    List.foldl_ext _ _ _ fun out w hw => addWord_of_isSettled (hsettled w hw) out
  exact hfold.trans hjoined.symm

theorem normalize_normalize (text : List Char) : normalize (normalize text) = normalize text :=
  normalize_eq_self_iff.2 (isNormal_normalize text)

/-- A text is normalized as its words are. -/
theorem normalize_congr {other : List Char} (h : Text.words text = Text.words other) :
    normalize text = normalize other := by
  rw [normalize, normalize, h]

/-- A word about locations that stands alone makes no difference. -/
theorem normalize_append_location {left right piece : List Char}
    (hbreak : Text.IsBreak left right) (hword : word ∈ locationWords)
    (hpiece : Text.words piece = [word]) (hleft : Text.IsBreak left piece)
    (hright : Text.IsBreak piece right) :
    normalize (left ++ piece ++ right) = normalize (left ++ right) := by
  have hwords : Text.words (left ++ piece ++ right) =
      Text.words left ++ word :: Text.words right := by
    -- the piece is not empty, so what comes after it does not see what comes before
    have hne : piece ≠ [] := by
      rintro rfl
      cases hpiece
    have hbreak' : Text.IsBreak (left ++ piece) right := by
      rwa [Text.IsBreak, List.getLast?_append_of_ne_nil _ hne]
    rw [Text.words_append hbreak', Text.words_append hleft, hpiece, List.append_assoc]
    rfl
  rw [normalize, normalize, hwords, Text.words_append hbreak, List.foldl_append, List.foldl_append,
    List.foldl_cons, addWord, if_pos hword]

/--
**Normalizing takes locations out of a descriptor.** Normalizing what is normalized changes nothing.
No word of it is a word about locations, or starts with one that an opening square or a closing
round bracket follows. And one more word about locations makes no difference, wherever it stands
alone: between two words of the text, before the first one or after the last.
-/
theorem normalize_ignores_locations (text : List Char) :
    normalize (normalize text) = normalize text ∧
    (∀ w ∈ Text.words (normalize text), w ∉ locationWords ∧
      ∀ location ∈ locationWords, ¬ location ++ ['['] <+: w ∧ ¬ location ++ [')'] <+: w) ∧
    ∀ left right, text = left ++ right → Text.IsBreak left right →
      ∀ word ∈ locationWords, ∀ piece, Text.words piece = [word] → Text.IsBreak left piece →
        Text.IsBreak piece right → normalize (left ++ piece ++ right) = normalize text := by
  refine ⟨normalize_normalize text, fun w hw => ?_, ?_⟩
  · have hsettled := (isNormal_normalize text).words.2 w hw
    refine ⟨hsettled.not_location, fun location hlocation => ⟨?_, ?_⟩⟩
    all_goals
      rintro ⟨rest, rfl⟩
      have hopen := hsettled.not_glued location hlocation _ (List.append_assoc ..)
      cases hopen
  · rintro left right rfl hbreak word hword piece hpiece hleft hright
    exact normalize_append_location hbreak hword hpiece hleft hright

/-- Brackets after locations are added to the words before, and a location after an odd blank. -/
theorem normalize_ignores_locations_glued :
    let text := "mapping(string memory => uint8 storage[] storage)".toList
    let left := "mapping(string memory => ".toList
    let right := "uint8 storage[] storage)".toList
    let piece := "pointer\u2003".toList
    normalize text = "mapping(string => uint8[])".toList ∧ text = left ++ right ∧
      Text.IsBreak left right ∧ "pointer".toList ∈ locationWords ∧
      Text.words piece = ["pointer".toList] ∧ Text.IsBreak left piece ∧ Text.IsBreak piece right ∧
      normalize (left ++ piece ++ right) = "mapping(string => uint8[])".toList := by
  intro text left right piece
  have hnormal : normalize text = "mapping(string => uint8[])".toList := by decide +kernel
  have hlast : left.getLast? = some ' ' := by decide +kernel
  have hbreak : Text.IsBreak left right := .of_getLast? hlast (by decide)
  have hword : "pointer".toList ∈ locationWords := by decide +kernel
  have hpiece : Text.words piece = ["pointer".toList] := by decide +kernel
  have hleft : Text.IsBreak left piece := .of_getLast? hlast (by decide)
  have hodd : piece.getLast? = some '\u2003' := by decide +kernel
  have hright : Text.IsBreak piece right := .of_getLast? hodd (by decide)
  refine ⟨hnormal, rfl, hbreak, hword, hpiece, hleft, hright, ?_⟩
  exact ((normalize_ignores_locations text).2.2 left right rfl hbreak _ hword piece hpiece hleft
    hright).trans hnormal

end Solscope.Descriptor
