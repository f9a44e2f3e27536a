import Mathlib.Order.MinMax
import Solscope.Source.File

/-!
# Positions stand for byte offsets

The positions of a file are in the order of its byte offsets, up to the end of the file, where all
further offsets are read as the end. So whatever is asked of offsets can be asked of positions.

* `SourceFile.locate_lt_iff`: an offset within lines is before another if its position is.
* `SourceFile.position_lt_iff`, `SourceFile.position_inj`: the same of the offsets of a file.
* `Sources.contains_extent_iff`: the positions that the extent of a range covers.
* `Sources.extents_faithful`: **positions represent offsets, and extents represent ranges.**
-/

namespace Solscope

theorem Position.not_lt_self (p : Position) : ¬ p < p := by
  rw [Position.lt_iff]
  omega

theorem Position.not_lt_of_lt {p q : Position} (h : p < q) : ¬ q < p := by
  rw [Position.lt_iff] at h ⊢
  omega

namespace SourceFile

variable {f : SourceFile} {o o' : Nat}

/-- No position is on a line before the first. -/
theorem le_line_locate (line : Nat) (widths : List Nat) (o : Nat) :
    line ≤ (locate line widths o).line := by
  fun_induction locate line widths o with
  | case1 line width next rest o h => exact Nat.le_refl line
  | case2 line width next rest o h ih => exact Nat.le_of_succ_le ih
  | case3 widths line o h => exact Nat.le_refl line

theorem locate_lt (line : Nat) (widths : List Nat) (h : o < o') :
    locate line widths o < locate line widths o' := by
  fun_induction locate line widths o generalizing o' with
  | case1 line width next rest o ho =>
    rw [locate, Position.lt_iff]
    by_cases ho' : o' ≤ width
    · rw [if_pos ho']
      exact .inr ⟨rfl, h⟩
    · -- the later offset is past the newline, so on a later line
      have hline := le_line_locate (line + 1) (next :: rest) (o' - (width + 1))
      rw [if_neg ho']
      exact .inl hline
  | case2 line width next rest o ho ih =>
    have ho' : ¬ o' ≤ width := by omega
    rw [locate, if_neg ho']
    exact ih (by omega)
  | case3 widths line o hwidths =>
    have hlast : locate line widths o' = ⟨line, o'⟩ := by
      match widths with
      | [] | [_] => rfl
      | width :: next :: rest => exact absurd rfl (hwidths width next rest)
    rw [hlast, Position.lt_iff]
    exact .inr ⟨rfl, h⟩

theorem locate_lt_iff (line : Nat) (widths : List Nat) (o o' : Nat) :
    locate line widths o < locate line widths o' ↔ o < o' := by
  refine ⟨fun h => ?_, locate_lt line widths⟩
  rcases Nat.lt_trichotomy o o' with hlt | rfl | hgt
  · exact hlt
  · exact absurd h (Position.not_lt_self _)
  · exact absurd h (Position.not_lt_of_lt (locate_lt line widths hgt))

theorem position_lt_iff (f : SourceFile) (o o' : Nat) :
    f.position o < f.position o' ↔ min o f.size < min o' f.size := locate_lt_iff ..

theorem position_le_iff (f : SourceFile) (o o' : Nat) :
    f.position o ≤ f.position o' ↔ min o f.size ≤ min o' f.size := by
  show ¬ f.position o' < f.position o ↔ _
  rw [position_lt_iff, Nat.not_lt]

/-- Positions are equal if the offsets are, up to the end of the file. -/
theorem position_inj (f : SourceFile) (o o' : Nat) :
    f.position o = f.position o' ↔ min o f.size = min o' f.size := by
  constructor
  · intro h
    have hlt : ¬ min o f.size < min o' f.size := by
      rw [← position_lt_iff, h]
      exact Position.not_lt_self _
    have hgt : ¬ min o' f.size < min o f.size := by
      rw [← position_lt_iff, h]
      exact Position.not_lt_self _
    omega
  · intro h
    rw [position, position, h]

end SourceFile

namespace Sources

variable {s : Sources} {f : SourceFile} {r q : SourceRange}

theorem extent?_eq (hf : s.get? r.file = some f) :
    s.extent? r = some ⟨r.file, f.position r.start, f.position r.stop⟩ := by rw [extent?, hf]; rfl

/-- Which positions of its file the extent of a range covers. -/
theorem contains_extent_iff {e : Extent} (hf : s.get? r.file = some f) (he : s.extent? r = some e)
    {o : Nat} (ho : o ≤ f.size) :
    e.contains r.file (f.position o) = true ↔
      min r.start f.size ≤ o ∧ o < min (r.start + r.length) f.size := by
  rw [extent?_eq hf] at he
  obtain rfl := Option.some.inj he
  rw [Extent.contains, decide_eq_true_eq, SourceFile.position_le_iff, SourceFile.position_lt_iff,
    Nat.min_eq_left ho]
  exact and_iff_right rfl

/-- Ranges inside a file have the same extent only if they are the same. -/
theorem extent?_inj (hfile : r.file = q.file) (hf : s.get? r.file = some f)
    (hr : r.start + r.length ≤ f.size) (hq : q.start + q.length ≤ f.size) :
    s.extent? r = s.extent? q ↔ r.start = q.start ∧ r.length = q.length := by
  rw [extent?_eq hf, extent?_eq (hfile ▸ hf), Option.some_inj, Extent.mk.injEq,
    SourceFile.position_inj, SourceFile.position_inj]
  unfold SourceRange.stop
  omega

/--
**Positions represent offsets, and extents represent ranges.** Positions grow with the offset up to
the end of the file, and stay as they are from there on. The extent of a range covers just the
positions of the offsets in the range, and none of another file. Ranges inside a file that have the
same extent are the same.
-/
theorem extents_faithful {number : Nat} (hf : s.get? number = some f) :
    (∀ o o', o < o' → o' ≤ f.size → f.position o < f.position o') ∧
    (∀ o, f.size ≤ o → f.position o = f.position f.size) ∧
    (∀ start length, start + length ≤ Size.largest →
      ∃ e, s.extent? ⟨number, start, length⟩ = some e ∧
        (∀ o ≤ f.size, e.contains number (f.position o) = true ↔
          min start f.size ≤ o ∧ o < min (start + length) f.size) ∧
        ∀ other ≠ number, ∀ p, e.contains other p = false) ∧
    (∀ start length start' length', start + length ≤ min f.size Size.largest →
      start' + length' ≤ min f.size Size.largest →
      (s.extent? ⟨number, start, length⟩ = s.extent? ⟨number, start', length'⟩ ↔
        start = start' ∧ length = length')) := by
  refine ⟨fun o o' h ho' => ?_, fun o ho => ?_, fun start length _ => ?_,
    fun start length start' length' hr hr' => ?_⟩
  · rw [SourceFile.position_lt_iff]
    omega
  · rw [SourceFile.position_inj]
    omega
  · have he := extent?_eq (r := ⟨number, start, length⟩) hf
    refine ⟨_, he, fun o ho => contains_extent_iff hf he ho, fun other hother p => ?_⟩
    rw [Extent.contains, decide_eq_false_iff_not]
    exact fun h => hother h.1.symm
  · exact extent?_inj (r := ⟨number, start, length⟩) (q := ⟨number, start', length'⟩) rfl hf
      (hr.trans (Nat.min_le_left ..)) (hr'.trans (Nat.min_le_left ..))

/-- A file with an empty line and a newline at its end, and two ranges that share their start. -/
theorem extents_faithful_newlines :
    let f : SourceFile := { index := 7, path := "A.sol", content := "ab\n\ncd\n" }
    let s : Sources := ⟨[(7, f)]⟩
    s.get? 7 = some f ∧ f.position 3 < f.position 4 ∧ f.position 99 = f.position f.size ∧
      (∃ e, s.extent? ⟨7, 2, 99⟩ = some e ∧ e.contains 7 (f.position 3) = true) ∧
      s.extent? ⟨7, 3, 1⟩ ≠ s.extent? ⟨7, 3, 2⟩ := by
  intro f s
  have hf : s.get? 7 = some f := rfl
  have hsize : f.size = 7 := rfl
  have hlargest : Size.largest = 2 ^ 64 - 1 := rfl
  obtain ⟨hgrows, hend, hcovers, hinj⟩ := extents_faithful hf
  obtain ⟨e, he, hcontains, -⟩ := hcovers 2 99 (by omega)
  refine ⟨hf, hgrows 3 4 (by omega) (by omega), hend 99 (by omega),
    ⟨e, he, (hcontains 3 (by omega)).2 (by omega)⟩, fun h => ?_⟩
  have heq := (hinj 3 1 3 2 (by omega) (by omega)).1 h
  omega

end Sources

end Solscope
