import Mathlib.Data.List.Infix
import Solscope.Proofs.Text.Utf8

/-!
# Texts cut at every occurrence of a character

The pieces of a text are what stands between the occurrences of a character, with nothing left out:
two occurrences side by side have an empty piece between them, and so have an occurrence and the end
of the text next to it.

* `Text.intercalate_pieces`, `Text.pieces_intercalate`: cutting and joining undo each other.
* `Text.pieces_append`: a text that goes on after the character has the pieces of both sides.
* `Text.pieces_suffix_iff`: **when the pieces of a text are the last ones of another.**
* `Text.splitOn_utf8`: **the bytes of the pieces** are the pieces of the bytes.
-/

namespace Solscope.Text

/-! ## Lists -/

section

variable {α : Type} [BEq α] [LawfulBEq α] {x : α}

theorem not_mem_of_mem_splitOn {xs ys : List α} (h : ys ∈ xs.splitOn x) : x ∉ ys := by
  induction xs generalizing ys with
  | nil =>
    obtain rfl := List.mem_singleton.1 h
    exact List.not_mem_nil
  | cons y xs ih =>
    rw [List.splitOn_cons_eq_if_modifyHead] at h
    split at h
    · rcases List.mem_cons.1 h with rfl | h
      · exact List.not_mem_nil
      · exact ih h
    · rename_i hy
      cases hrest : xs.splitOn x with
      | nil => exact absurd hrest (List.splitOn_ne_nil x xs)
      | cons first rest =>
        rw [hrest] at ih h
        rw [List.modifyHead_cons] at h
        rcases List.mem_cons.1 h with rfl | h
        · have hne : x ≠ y := fun hxy => hy (beq_iff_eq.2 hxy.symm)
          exact List.not_mem_cons_of_ne_of_not_mem hne (ih List.mem_cons_self)
        · exact ih (List.mem_cons_of_mem _ h)

theorem splitOn_append_of_not_mem {front : List α} (h : x ∉ front) (rest : List α) :
    (front ++ rest).splitOn x = (rest.splitOn x).modifyHead (front ++ ·) := by
  induction front with
  | nil =>
    rw [List.nil_append]
    cases rest.splitOn x <;> rfl
  | cons y front ih =>
    rw [List.mem_cons, not_or] at h
    have hy : ¬ (y == x) = true := fun hyx => h.1 (eq_of_beq hyx).symm
    rw [List.cons_append, List.splitOn_cons_eq_if_modifyHead, if_neg hy, ih h.2,
      List.modifyHead_modifyHead]
    rfl

end

/-- What comes before a piece, each part followed by the item that pieces are joined with. -/
theorem intercalate_append_cons {α : Type} (x : α) (front : List (List α))
    (ys : List α) (back : List (List α)) :
    [x].intercalate (front ++ ys :: back) =
      front.flatMap (· ++ [x]) ++ [x].intercalate (ys :: back) := by
  induction front with
  | nil => rfl
  | cons first front ih =>
    obtain ⟨next, rest, hrest⟩ := List.exists_cons_of_ne_nil (List.append_ne_nil_of_right_ne_nil
      front (List.cons_ne_nil ys back))
    rw [List.cons_append, List.flatMap_cons, List.append_assoc, ← ih, hrest,
      List.intercalate_cons_cons]

/-! ## Characters -/

/-- What stands between the occurrences of a character. -/
def pieces (c : Char) (text : String) : List String := (text.toList.splitOn c).map String.ofList

variable {c : Char} {s t piece : String}

theorem map_toList_pieces (c : Char) (s : String) :
    (pieces c s).map String.toList = s.toList.splitOn c := by
  have hcomp : String.toList ∘ String.ofList = id := funext fun _ => String.toList_ofList
  rw [pieces, List.map_map, hcomp, List.map_id]

theorem pieces_ne_nil (c : Char) (s : String) : pieces c s ≠ [] := by
  rw [pieces, Ne, List.map_eq_nil_iff]
  exact List.splitOn_ne_nil c s.toList

/-- Joined pieces make up the text. -/
theorem intercalate_pieces (c : Char) (s : String) :
    (String.singleton c).intercalate (pieces c s) = s := by
  rw [← String.toList_inj, String.toList_intercalate, map_toList_pieces, String.toList_singleton,
    List.intercalate_splitOn]

theorem pieces_inj : pieces c s = pieces c t ↔ s = t := by
  constructor
  · intro h
    rw [← intercalate_pieces c s, h, intercalate_pieces]
  · exact congrArg (pieces c)

/-- No piece has the character in it. -/
theorem not_mem_of_mem_pieces (h : piece ∈ pieces c s) : c ∉ piece.toList := by
  have hchars : piece.toList ∈ s.toList.splitOn c := by
    rw [← map_toList_pieces]
    exact List.mem_map_of_mem h
  exact not_mem_of_mem_splitOn hchars

/-- Pieces are found again in the text that they make up. -/
theorem pieces_intercalate {ss : List String} (h : ∀ s ∈ ss, c ∉ s.toList) (hne : ss ≠ []) :
    pieces c ((String.singleton c).intercalate ss) = ss := by
  have hcomp : String.ofList ∘ String.toList = id := funext fun _ => String.ofList_toList
  have hchars : ∀ cs ∈ ss.map String.toList, c ∉ cs := by
    intro cs hcs
    obtain ⟨s, hs, rfl⟩ := List.mem_map.1 hcs
    exact h s hs
  rw [pieces, String.toList_intercalate, String.toList_singleton,
    List.splitOn_intercalate c hchars (by simpa using hne), List.map_map, hcomp, List.map_id]

/-- A text that goes on after the character has the pieces of both sides. -/
theorem pieces_append (c : Char) (s t : String) :
    pieces c (s ++ String.singleton c ++ t) = pieces c s ++ pieces c t := by
  rw [pieces, String.toList_append, String.toList_append, String.toList_singleton,
    List.append_assoc, List.singleton_append, List.splitOn_append_cons_self, List.map_append,
    pieces, pieces]

/--
**The pieces of a text are the last ones of another** if it is that text or follows the character at
its end.
-/
theorem pieces_suffix_iff :
    pieces c s <:+ pieces c t ↔ s = t ∨ ∃ front, t = front ++ String.singleton c ++ s := by
  constructor
  · rintro ⟨first, hfirst⟩
    by_cases hnil : first = []
    · rw [hnil, List.nil_append] at hfirst
      exact .inl (pieces_inj.1 hfirst)
    · -- the pieces before are those of what they make up
      have hfree : ∀ piece ∈ first, c ∉ piece.toList := by
        intro piece hpiece
        refine not_mem_of_mem_pieces (s := t) ?_
        rw [← hfirst]
        exact List.mem_append_left _ hpiece
      refine .inr ⟨(String.singleton c).intercalate first, pieces_inj (c := c).1 ?_⟩
      rw [pieces_append, pieces_intercalate hfree hnil, hfirst]
  · rintro (rfl | ⟨front, rfl⟩)
    · exact List.suffix_refl _
    · rw [pieces_append]
      exact List.suffix_append _ _

/-! ## Bytes -/

/-- Bytes are cut where the characters are. -/
theorem splitOn_encode (hc : c.toNat < 0x80) (cs : List Char) :
    (encode cs).splitOn (UInt8.ofNat c.toNat) = (cs.splitOn c).map encode := by
  induction cs with
  | nil => rfl
  | cons d cs ih =>
    rw [List.splitOn_cons_eq_if_modifyHead]
    by_cases hd : d = c
    · rw [if_pos (beq_iff_eq.2 hd), hd, encode_cons_ascii hc, List.splitOn_cons_eq_if_modifyHead,
        if_pos (beq_self_eq_true _), ih]
      rfl
    · rw [if_neg (fun h => hd (beq_iff_eq.1 h)), encode_cons,
        splitOn_append_of_not_mem (not_mem_utf8EncodeChar hc hd), ih]
      cases cs.splitOn c with
      | nil => rfl
      | cons first rest =>
        rw [List.map_cons, List.modifyHead_cons, List.modifyHead_cons, List.map_cons, encode_cons]

/-- **The bytes of the pieces** between occurrences of a character of ASCII. -/
theorem splitOn_utf8 (hc : c.toNat < 0x80) (s : String) :
    (utf8 s).splitOn (UInt8.ofNat c.toNat) = (pieces c s).map utf8 := by
  rw [utf8, splitOn_encode hc, ← map_toList_pieces, List.map_map]
  rfl

end Solscope.Text
