import Mathlib.Data.List.Induction
import Solscope.Proofs.Text.Trimming
import Solscope.Proofs.Ty.Names

/-!
# Words and blanks

The words of a text are found again in the words of a longer one, as long as no word goes on across
the place where the two are put together.

* `Text.words_append_blank`: **a blank ends a word**; all else about words follows from it.
* `Text.words_append`: the words of two texts, one after the other.
* `Text.words_start`: a text that starts inside a word.
* `Text.words_trim`: trimming leaves words alone.
* `Text.joined`: words with single blanks between; `Text.words_joined` takes them apart again.
-/

namespace Solscope.Text

variable {c : Char} {left right text word : List Char} {ws : List (List Char)}

/-! ## Taking texts apart -/

theorem forall_not_blank (h : text.any isBlank = false) : ∀ c ∈ text, isBlank c = false := by
  simpa using h

/-- No word is empty. -/
theorem ne_nil_of_mem_words (h : word ∈ words text) : word ≠ [] := by
  have hfrom : ∀ (cs start : List Char), ∀ word ∈ wordsFrom start cs, word ≠ [] := by
    intro cs
    induction cs with
    | nil =>
      intro start word hword
      unfold wordsFrom at hword
      split at hword
      · cases hword
      · rename_i hstart
        obtain rfl := List.mem_singleton.1 hword
        simpa using hstart
    | cons d cs ih =>
      intro start word hword
      unfold wordsFrom at hword
      split at hword
      · split at hword
        · exact ih [] word hword
        · rename_i hstart
          rcases List.mem_cons.1 hword with rfl | hword
          · simpa using hstart
          · exact ih [] word hword
      · exact ih (d :: start) word hword
  exact hfrom text [] word h

theorem wordsFrom_append_blank (hc : isBlank c = true) (start left right : List Char) :
    wordsFrom start (left ++ c :: right) = wordsFrom start left ++ words right := by
  induction left generalizing start with
  | nil =>
    rw [List.nil_append, wordsFrom.eq_2, if_pos hc, wordsFrom.eq_1]
    split <;> rfl
  | cons d left ih =>
    rw [List.cons_append, wordsFrom, wordsFrom, ih, ih]
    split
    · split <;> rfl
    · rfl

/-- **A blank ends a word.** -/
theorem words_append_blank (hc : isBlank c = true) (left right : List Char) :
    words (left ++ c :: right) = words left ++ words right :=
  wordsFrom_append_blank hc [] left right

theorem words_cons_blank (hc : isBlank c = true) (text : List Char) :
    words (c :: text) = words text :=
  words_append_blank hc [] text

theorem words_append_singleton (hc : isBlank c = true) (text : List Char) :
    words (text ++ [c]) = words text := by
  rw [words_append_blank hc]
  exact List.append_nil _

/-- No word goes on from one text into the other: nothing is on one side, or a blank. -/
def IsBreak (left right : List Char) : Prop :=
  (∀ c ∈ left.getLast?, isBlank c = true) ∨ ∀ c ∈ right.head?, isBlank c = true

theorem IsBreak.of_getLast? (h : left.getLast? = some c) (hc : isBlank c = true) :
    IsBreak left right := by
  refine .inl fun d hd => ?_
  obtain rfl := Option.some.inj (h.symm.trans hd)
  exact hc

/-- **The words of two texts** with a break between are those of both. -/
theorem words_append (h : IsBreak left right) :
    words (left ++ right) = words left ++ words right := by
  rcases h with h | h
  · rcases List.eq_nil_or_concat left with rfl | ⟨front, c, rfl⟩
    · rfl
    · have hc : isBlank c = true := h c (by simp)
      rw [List.concat_eq_append, List.append_assoc, List.singleton_append,
        words_append_blank hc, words_append_singleton hc]
  · cases right with
    | nil => simp [words, wordsFrom]
    | cons c right =>
      have hc : isBlank c = true := h c rfl
      rw [words_append_blank hc, words_cons_blank hc]

/-- The first word goes on up to the first blank. -/
theorem wordsFrom_of_ne_nil {start : List Char} (hstart : start ≠ []) (text : List Char) :
    ∃ first rest, text = first ++ rest ∧ (∀ c ∈ first, isBlank c = false) ∧
      (∀ c ∈ rest.head?, isBlank c = true) ∧
      wordsFrom start text = (start.reverse ++ first) :: words rest := by
  induction text generalizing start with
  | nil =>
    refine ⟨[], [], rfl, by simp, by simp, ?_⟩
    rw [wordsFrom, if_neg (by simpa using hstart), List.append_nil]
    rfl
  | cons c text ih =>
    by_cases hc : isBlank c = true
    · refine ⟨[], c :: text, rfl, by simp, by simpa using hc, ?_⟩
      rw [wordsFrom, if_pos hc, if_neg (by simpa using hstart), List.append_nil,
        words_cons_blank hc]
      rfl
    · obtain ⟨first, rest, rfl, hfirst, hrest, hwords⟩ := ih (List.cons_ne_nil c start)
      refine ⟨c :: first, rest, rfl, List.forall_mem_cons.2 ⟨by simpa using hc, hfirst⟩, hrest, ?_⟩
      rw [wordsFrom, if_neg hc, hwords, List.reverse_cons, List.append_assoc,
        List.singleton_append]

/-- **A text that starts inside a word**: how the word goes on does not depend on its start. -/
theorem words_start (text : List Char) : ∃ first rest, text = first ++ rest ∧
    (∀ c ∈ first, isBlank c = false) ∧
      ∀ start : List Char, start ≠ [] → (∀ c ∈ start, isBlank c = false) →
        words (start ++ text) = (start ++ first) :: words rest := by
  obtain ⟨first, rest, rfl, hfirst, hrest, -⟩ := wordsFrom_of_ne_nil (List.cons_ne_nil 'x' []) text
  refine ⟨first, rest, rfl, hfirst, fun start hne hstart => ?_⟩
  have hone : words (start ++ first) = [start ++ first] := by
    refine words_eq_singleton (by simp [hne]) fun c hc => ?_
    rcases List.mem_append.1 hc with hc | hc
    · exact hstart c hc
    · exact hfirst c hc
  rw [← List.append_assoc, words_append (.inr hrest), hone]
  rfl

/-! ## Trimming -/

theorem words_dropWhile_isBlank (cs : List Char) : words (cs.dropWhile isBlank) = words cs := by
  induction cs with
  | nil => rfl
  | cons c cs ih =>
    rw [List.dropWhile_cons]
    split
    · rename_i hc
      rw [ih, words_cons_blank hc]
    · rfl

theorem words_trimEnd (cs : List Char) : words (trimEnd cs) = words cs := by
  induction cs using List.reverseRecOn with
  | nil => rfl
  | append_singleton cs c ih =>
    rw [trimEnd, List.reverse_append, List.reverse_singleton, List.singleton_append,
      List.dropWhile_cons]
    split
    · rename_i hc
      rw [words_append_singleton hc]
      exact ih
    · rw [List.reverse_cons, List.reverse_reverse]

/-- Trimming leaves words alone. -/
theorem words_trim (cs : List Char) : words (trim cs) = words cs :=
  (words_trimEnd _).trans (words_dropWhile_isBlank cs)

/-! ## Putting words together -/

/-- Adds a word, after a blank unless it is the first one. -/
def joinWord (out word : List Char) : List Char := if out.isEmpty then word else out ++ ' ' :: word

/-- Words with single blanks between. -/
def joined (ws : List (List Char)) : List Char := ws.foldl joinWord []

theorem joinWord_of_ne_nil {out : List Char} (h : out ≠ []) (word : List Char) :
    joinWord out word = out ++ ' ' :: word := by
  rw [joinWord, if_neg (by simpa using h)]

theorem joined_concat (ws : List (List Char)) (word : List Char) :
    joined (ws ++ [word]) = joinWord (joined ws) word := by
  rw [joined, List.foldl_append]
  rfl

/-- Nothing comes between the start of a text and what it starts with. -/
theorem foldl_joinWord_append {out : List Char} (hout : out ≠ []) (start : List Char)
    (ws : List (List Char)) :
    ws.foldl joinWord (start ++ out) = start ++ ws.foldl joinWord out := by
  induction ws generalizing out with
  | nil => rfl
  | cons w ws ih =>
    have hstart : start ++ out ≠ [] := by simp [hout]
    rw [List.foldl_cons, List.foldl_cons, joinWord_of_ne_nil hstart, joinWord_of_ne_nil hout,
      List.append_assoc, ih (by simp)]

/-- The first word may be longer. -/
theorem joined_cons_append (start : List Char) {word : List Char} (hword : word ≠ [])
    (ws : List (List Char)) : joined ((start ++ word) :: ws) = start ++ joined (word :: ws) :=
  foldl_joinWord_append hword start ws

/-- More words come after a blank. -/
theorem joined_append {ws vs : List (List Char)} (hws : joined ws ≠ []) (hvs : vs ≠ [])
    (h : ∀ v ∈ vs, v ≠ []) : joined (ws ++ vs) = joined ws ++ ' ' :: joined vs := by
  obtain ⟨v, rest, rfl⟩ := List.exists_cons_of_ne_nil hvs
  have hv : v ≠ [] := h v List.mem_cons_self
  have hsplit : joined ws ++ ' ' :: v = (joined ws ++ [' ']) ++ v := by simp
  rw [joined, List.foldl_append, List.foldl_cons, ← joined, joinWord_of_ne_nil hws, hsplit,
    foldl_joinWord_append hv, List.append_assoc, List.singleton_append]
  rfl

/-- **Joined words are found again.** -/
theorem words_joined (h : ∀ w ∈ ws, w ≠ [] ∧ ∀ c ∈ w, isBlank c = false) :
    words (joined ws) = ws := by
  induction ws using List.reverseRecOn with
  | nil => rfl
  | append_singleton ws word ih =>
    obtain ⟨hne, hblank⟩ := h word (by simp)
    have hws := ih fun w hw => h w (List.mem_append_left _ hw)
    have hword : words word = [word] := words_eq_singleton hne hblank
    rw [joined_concat, joinWord]
    split
    · rename_i hempty
      rw [List.isEmpty_iff.1 hempty] at hws
      rw [hword, ← hws]
      rfl
    · rw [words_append_blank (by decide), hws, hword]

end Solscope.Text
