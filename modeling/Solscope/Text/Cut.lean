/-!
# Cutting texts

A text is cut after a fixed start, before a fixed end, or at the last occurrence of a character,
which then belongs to neither side.

* `after?_eq_some_iff`, `before?_eq_some_iff`, `cutLast?_eq_some_iff`: the pieces make up the text.
-/

namespace Solscope.Text

/-- What follows `start` in a text that begins with it. -/
def after? (start : List Char) (cs : List Char) : Option (List Char) :=
  if start.isPrefixOf cs then some (cs.drop start.length) else none

/-- What precedes `stop` in a text that ends with it. -/
def before? (stop : List Char) (cs : List Char) : Option (List Char) :=
  (after? stop.reverse cs.reverse).map List.reverse

/-- The two sides of the last occurrence of `c`. -/
def cutLast? (c : Char) : List Char → Option (List Char × List Char)
  | [] => none
  | d :: ds =>
    match cutLast? c ds with
    | some (left, right) => some (d :: left, right)
    | none => if d = c then some ([], ds) else none

/-! ## What cutting finds -/

theorem after?_eq_some_iff {start cs rest : List Char} :
    after? start cs = some rest ↔ cs = start ++ rest := by
  unfold after?
  split <;> rename_i h
  · obtain ⟨rest', rfl⟩ := List.isPrefixOf_iff_prefix.1 h
    simp
  · exact ⟨by simp, fun hcs => absurd (List.isPrefixOf_iff_prefix.2 ⟨rest, hcs.symm⟩) h⟩

theorem before?_eq_some_iff {stop cs rest : List Char} :
    before? stop cs = some rest ↔ cs = rest ++ stop := by
  simp only [before?, Option.map_eq_some_iff, after?_eq_some_iff]
  constructor
  · rintro ⟨r, hr, rfl⟩
    simpa using congrArg List.reverse hr
  · rintro rfl
    exact ⟨rest.reverse, by simp, by simp⟩

theorem cutLast?_eq_none_iff {c : Char} {cs : List Char} : cutLast? c cs = none ↔ c ∉ cs := by
  induction cs with
  | nil => simp [cutLast?]
  | cons d ds ih =>
    cases h : cutLast? c ds with
    | some found =>
      have hmem : c ∈ ds := Classical.not_not.1 fun hn => by simp [ih.2 hn] at h
      simp [cutLast?, h, hmem]
    | none =>
      by_cases hd : d = c
      · simp [cutLast?, h, hd]
      · simp [cutLast?, h, hd, ih.1 h, Ne.symm hd]

theorem cutLast?_append {c : Char} (left : List Char) {right : List Char} (h : c ∉ right) :
    cutLast? c (left ++ c :: right) = some (left, right) := by
  induction left with
  | nil => simp [cutLast?, cutLast?_eq_none_iff.2 h]
  | cons d ds ih => simp [cutLast?, ih]

theorem eq_of_cutLast? {c : Char} {cs left right : List Char}
    (h : cutLast? c cs = some (left, right)) : cs = left ++ c :: right ∧ c ∉ right := by
  induction cs generalizing left with
  | nil => simp [cutLast?] at h
  | cons d ds ih =>
    cases hds : cutLast? c ds with
    | some found =>
      simp only [cutLast?, hds, Option.some.injEq, Prod.mk.injEq] at h
      obtain ⟨rfl, rfl⟩ := h
      simp [ih hds]
    | none =>
      by_cases hd : d = c
      · simp only [cutLast?, hds, hd, if_true, Option.some.injEq, Prod.mk.injEq] at h
        obtain ⟨rfl, rfl⟩ := h
        exact ⟨by simp [hd], cutLast?_eq_none_iff.1 hds⟩
      · simp [cutLast?, hds, hd] at h

/-- The last occurrence is the one that has none after it. -/
theorem cutLast?_eq_some_iff {c : Char} {cs left right : List Char} :
    cutLast? c cs = some (left, right) ↔ cs = left ++ c :: right ∧ c ∉ right :=
  ⟨eq_of_cutLast?, fun ⟨hcs, hright⟩ => hcs ▸ cutLast?_append left hright⟩

end Solscope.Text
