import Mathlib.Data.List.Basic
import Solscope.Text.Blank

/-!
# Trimmed texts

Trimming takes all blanks off both ends of a text and nothing else.

* `Text.IsTrimmed`: there is no blank at either end.
* `Text.trim_eq_self_iff`: **trimming changes just the texts that are not trimmed.**
* `Text.trim_between`: blanks around a text are taken off.
-/

namespace Solscope.Text

variable {cs : List Char}

/-- There is no blank at either end. -/
def IsTrimmed (cs : List Char) : Prop :=
  (∀ c ∈ cs.head?, isBlank c = false) ∧ ∀ c ∈ cs.getLast?, isBlank c = false

theorem head?_dropWhile_isBlank (cs : List Char) :
    ∀ c ∈ (cs.dropWhile isBlank).head?, isBlank c = false := by
  intro c hc
  have hfirst := List.head?_dropWhile_not isBlank cs
  rw [hc] at hfirst
  exact hfirst

theorem dropWhile_isBlank_eq_self (h : ∀ c ∈ cs.head?, isBlank c = false) :
    cs.dropWhile isBlank = cs := by
  cases cs with
  | nil => rfl
  | cons c cs => exact List.dropWhile_cons_of_neg (by simp [h c rfl])

theorem trimEnd_prefix (cs : List Char) : trimEnd cs <+: cs := by
  have hsuffix : cs.reverse.dropWhile isBlank <:+ cs.reverse := List.dropWhile_suffix isBlank
  rw [← List.reverse_prefix, List.reverse_reverse] at hsuffix
  exact hsuffix

theorem isTrimmed_trim (cs : List Char) : IsTrimmed (trim cs) := by
  constructor
  · intro c hc
    -- what is left starts where the text starts without its first blanks
    obtain ⟨rest, hrest⟩ := trimEnd_prefix (cs.dropWhile isBlank)
    refine head?_dropWhile_isBlank cs c ?_
    rw [trim] at hc
    rw [← hrest, List.head?_append, Option.mem_def.1 hc]
    rfl
  · intro c hc
    rw [trim, trimEnd, List.getLast?_reverse] at hc
    exact head?_dropWhile_isBlank _ c hc

/-- **Trimming changes just the texts that are not trimmed.** -/
theorem trim_eq_self_iff : trim cs = cs ↔ IsTrimmed cs := by
  refine ⟨fun h => h ▸ isTrimmed_trim cs, fun ⟨hfirst, hlast⟩ => ?_⟩
  rw [← List.head?_reverse] at hlast
  rw [trim, trimEnd, dropWhile_isBlank_eq_self hfirst, dropWhile_isBlank_eq_self hlast,
    List.reverse_reverse]

/-- A text without blanks has none to trim. -/
theorem trim_eq_self (h : ∀ c ∈ cs, isBlank c = false) : trim cs = cs :=
  trim_eq_self_iff.2 ⟨fun c hc => h c (List.mem_of_mem_head? hc),
    fun c hc => h c (List.mem_of_getLast? hc)⟩

/-- Trimming adds nothing. -/
theorem trim_subset (cs : List Char) : trim cs ⊆ cs := by
  intro c hc
  have hend : c ∈ (cs.dropWhile isBlank).reverse :=
    (List.dropWhile_sublist isBlank).subset (List.mem_reverse.1 hc)
  exact (List.dropWhile_sublist isBlank).subset (List.mem_reverse.1 hend)

theorem trimEnd_append_blanks {after : List Char} (h : ∀ c ∈ after, isBlank c = true)
    (cs : List Char) : trimEnd (cs ++ after) = trimEnd cs := by
  have hreverse : ∀ c ∈ after.reverse, isBlank c = true := fun c hc => h c (List.mem_reverse.1 hc)
  rw [trimEnd, List.reverse_append, List.dropWhile_append_of_pos hreverse, trimEnd]

/-- Trimming takes the blanks off around a text that has none itself. -/
theorem trim_between {before cs after : List Char} (hbefore : ∀ c ∈ before, isBlank c = true)
    (hcs : ∀ c ∈ cs, isBlank c = false) (hafter : ∀ c ∈ after, isBlank c = true) :
    trim (before ++ cs ++ after) = cs := by
  have hself : trimEnd (cs.dropWhile isBlank) = cs := trim_eq_self hcs
  rw [trim, List.append_assoc, List.dropWhile_append_of_pos hbefore]
  cases cs with
  | nil =>
    have hdrop : after.dropWhile isBlank = [] := by
      rw [← List.append_nil after, List.dropWhile_append_of_pos hafter, List.dropWhile_nil]
    rw [List.nil_append, hdrop]
    rfl
  | cons c cs =>
    have hc : isBlank c = false := hcs c List.mem_cons_self
    have hdrop : ∀ ds, (c :: ds).dropWhile isBlank = c :: ds := by
      intro ds
      exact List.dropWhile_cons_of_neg (by simp [hc])
    rw [hdrop] at hself
    rw [List.cons_append, hdrop, ← List.cons_append, trimEnd_append_blanks hafter, hself]

end Solscope.Text
