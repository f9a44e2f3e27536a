import Mathlib.Tactic.Linarith
import Solscope.Proofs.Source.Positions
import Solscope.Proofs.Text.Pieces

/-!
# Lines of source files

The lines of a file, joined with newlines, are its text. A position says how many lines come before
an offset and how many bytes of its own line do, so it can be told from the newlines before the
offset, and the offset can be told from it.

* `SourceFile.exists_locate`: the line that walking over the widths of lines ends at.
* `SourceFile.exists_position`: the lines before a position, and its own line.
* `SourceFile.take_utf8`: the bytes before an offset.
* `SourceFile.positions_count_newlines`: **positions count newlines and bytes**, and offsets are
  found again.
-/

namespace Solscope

/-- The byte of a newline. -/
def newline : UInt8 := 0x0A

/-- How many bytes come after the last newline, or after the start if there is none. -/
def sinceNewline (data : Bytes) : Nat := (data.reverse.takeWhile (· ≠ newline)).length

/-- The bytes of a line and of the newline after it. -/
def lineBytes (line : String) : Bytes := Text.utf8 line ++ [newline]

/-- How many bytes some lines take together with the newlines after them. -/
def lineOffset (lines : List String) : Nat := (lines.map fun line => line.utf8ByteSize + 1).sum

theorem length_lineBytes (line : String) : (lineBytes line).length = line.utf8ByteSize + 1 := by
  rw [lineBytes, List.length_append, Text.length_utf8]
  rfl

theorem length_flatMap_lineBytes (lines : List String) :
    (lines.flatMap lineBytes).length = lineOffset lines := by
  rw [List.length_flatMap, lineOffset]
  exact congrArg _ (List.map_congr_left fun line _ => length_lineBytes line)

theorem sinceNewline_append {before after : Bytes}
    (hbefore : before = [] ∨ before.getLast? = some newline) (hafter : newline ∉ after) :
    sinceNewline (before ++ after) = after.length := by
  have hall : ∀ b ∈ after.reverse, decide (b ≠ newline) = true := by
    intro b hb
    rw [decide_eq_true_eq]
    rintro rfl
    exact hafter (List.mem_reverse.1 hb)
  have hstop : before.reverse.takeWhile (· ≠ newline) = [] := by
    rcases hbefore with rfl | hlast
    · rfl
    · obtain ⟨front, rfl⟩ := List.getLast?_eq_some_iff.1 hlast
      rw [List.reverse_append, List.reverse_singleton, List.singleton_append]
      exact List.takeWhile_cons_of_neg (by simp)
  rw [sinceNewline, List.reverse_append, List.takeWhile_append_of_pos hall, hstop,
    List.append_nil, List.length_reverse]

namespace SourceFile

variable {f : SourceFile} {front back : List String} {line : String}

/-! ## Lines -/

theorem lineCount_eq (f : SourceFile) : f.lineCount = (linesOf f.content).length := by
  rw [lineCount, f.lineWidths_eq, lineWidthsOf, linesOf, List.length_map, List.length_map]

theorem lineWidths_eq_map (f : SourceFile) :
    f.lineWidths = (linesOf f.content).map String.utf8ByteSize := by
  rw [f.lineWidths_eq, lineWidthsOf, linesOf, List.map_map]
  refine List.map_congr_left fun cs _ => ?_
  rw [Function.comp_apply, ← Text.length_utf8, Text.utf8, String.toList_ofList]

/-- The bytes of a file are cut where its text is. -/
theorem splitOn_utf8_content (f : SourceFile) :
    (Text.utf8 f.content).splitOn newline = (linesOf f.content).map Text.utf8 :=
  Text.splitOn_utf8 (c := '\n') (by decide) f.content

theorem newline_not_mem_utf8 (hline : line ∈ linesOf f.content) : newline ∉ Text.utf8 line := by
  have hbytes : Text.utf8 line ∈ (Text.utf8 f.content).splitOn newline := by
    rw [splitOn_utf8_content]
    exact List.mem_map_of_mem hline
  exact Text.not_mem_of_mem_splitOn hbytes

/-- The bytes of a file up to a line, those of the line, and those after it. -/
theorem exists_utf8_eq (h : linesOf f.content = front ++ line :: back) :
    ∃ rest, Text.utf8 f.content = front.flatMap lineBytes ++ (Text.utf8 line ++ rest) ∧
      (back = [] → rest = []) := by
  have hjoin : Text.utf8 f.content = [newline].intercalate ((linesOf f.content).map Text.utf8) := by
    rw [← splitOn_utf8_content, List.intercalate_splitOn]
  rw [h, List.map_append, List.map_cons, Text.intercalate_append_cons, List.flatMap_map] at hjoin
  cases back with
  | nil =>
    refine ⟨[], ?_, fun _ => rfl⟩
    rw [hjoin, List.map_nil, List.intercalate_singleton, List.append_nil]
    rfl
  | cons next back =>
    refine ⟨[newline] ++ [newline].intercalate ((next :: back).map Text.utf8), ?_, by simp⟩
    rw [hjoin, List.map_cons, List.intercalate_cons_cons, List.append_assoc]
    rfl

/-- A file lacks the newline after its last line. -/
theorem lineOffset_linesOf (f : SourceFile) : lineOffset (linesOf f.content) = f.size + 1 := by
  have hne : linesOf f.content ≠ [] := Text.pieces_ne_nil '\n' f.content
  obtain ⟨front, line, hlines⟩ := List.eq_nil_or_concat' _ |>.resolve_left hne
  obtain ⟨rest, hbytes, hrest⟩ := exists_utf8_eq hlines
  obtain rfl := hrest rfl
  have hlength := congrArg List.length hbytes
  rw [List.length_append, length_flatMap_lineBytes, List.append_nil, Text.length_utf8,
    Text.length_utf8] at hlength
  rw [hlines, lineOffset, List.map_append, List.sum_append, size, hlength]
  simp [lineOffset, Nat.add_assoc]

/-! ## Positions -/

/-- The line that walking over the widths of lines ends at, and what is left of the offset there. -/
theorem exists_locate (start : Nat) (widths : List Nat) {o : Nat}
    (h : o < (widths.map (· + 1)).sum) :
    ∃ before width after, widths = before ++ width :: after ∧
      (locate start widths o).line = start + before.length ∧
      (locate start widths o).column ≤ width ∧
      (before.map (· + 1)).sum + (locate start widths o).column = o := by
  fun_induction locate start widths o with
  | case1 start width next rest o ho =>
    exact ⟨[], width, next :: rest, rfl, rfl, ho, Nat.zero_add o⟩
  | case2 start width next rest o ho ih =>
    rw [List.map_cons, List.sum_cons] at h
    obtain ⟨before, found, after, hwidths, hline, hcolumn, hoffset⟩ := ih (by omega)
    refine ⟨width :: before, found, after, ?_, ?_, hcolumn, ?_⟩
    · rw [hwidths, List.cons_append]
    · rw [hline, List.length_cons]
      omega
    · rw [List.map_cons, List.sum_cons]
      omega
  | case3 widths start o hwidths =>
    rcases widths with _ | ⟨width, _ | ⟨next, rest⟩⟩
    · exact absurd h (Nat.not_lt_zero o)
    · rw [List.map_singleton, List.sum_singleton] at h
      exact ⟨[], width, [], rfl, rfl, Nat.le_of_lt_succ h, Nat.zero_add o⟩
    · exact absurd rfl (hwidths width next rest)

/-- The lines before a position, and its own line. -/
theorem exists_position (f : SourceFile) (o : Nat) :
    ∃ front line back, linesOf f.content = front ++ line :: back ∧
      (f.position o).line = front.length ∧ (f.position o).column ≤ line.utf8ByteSize ∧
      lineOffset front + (f.position o).column = min o f.size := by
  have hwithin : min o f.size < (f.lineWidths.map (· + 1)).sum := by
    have hsum : (f.lineWidths.map (· + 1)).sum = lineOffset (linesOf f.content) := by
      rw [lineWidths_eq_map, List.map_map]
      rfl
    rw [hsum, lineOffset_linesOf]
    omega
  obtain ⟨before, width, after, hwidths, hline, hcolumn, hoffset⟩ := exists_locate 0 _ hwithin
  rw [lineWidths_eq_map] at hwidths
  obtain ⟨front, rest, hlines, rfl, hrest⟩ := List.map_eq_append_iff.1 hwidths
  obtain ⟨line, back, rfl, rfl, rfl⟩ := List.map_eq_cons_iff.1 hrest
  refine ⟨front, line, back, hlines, ?_, hcolumn, ?_⟩
  · rw [position, hline, List.length_map, Nat.zero_add]
  · rw [← hoffset, lineOffset, List.map_map]
    rfl

/-- The bytes before an offset are the lines before its own, and what comes before it there. -/
theorem take_utf8 (h : linesOf f.content = front ++ line :: back) {column : Nat}
    (hcolumn : column ≤ line.utf8ByteSize) :
    (Text.utf8 f.content).take (lineOffset front + column) =
      front.flatMap lineBytes ++ (Text.utf8 line).take column := by
  obtain ⟨rest, hbytes, -⟩ := exists_utf8_eq h
  rw [← Text.length_utf8] at hcolumn
  rw [hbytes, ← length_flatMap_lineBytes, List.take_length_add_append,
    List.take_append_of_le_length hcolumn]

/-- A line is the bytes that follow those of the lines before it. -/
theorem slice_utf8 (h : linesOf f.content = front ++ line :: back) :
    (Text.utf8 f.content).slice (lineOffset front) line.utf8ByteSize = Text.utf8 line := by
  obtain ⟨rest, hbytes, -⟩ := exists_utf8_eq h
  rw [hbytes, Bytes.slice, ← length_flatMap_lineBytes, List.drop_left, ← Text.length_utf8,
    List.take_left]

theorem count_lineBytes (hline : line ∈ linesOf f.content) :
    (lineBytes line).count newline = 1 := by
  rw [lineBytes, List.count_append, List.count_eq_zero_of_not_mem (newline_not_mem_utf8 hline)]
  rfl

theorem count_flatMap_lineBytes (hfront : ∀ line ∈ front, line ∈ linesOf f.content) :
    (front.flatMap lineBytes).count newline = front.length := by
  induction front with
  | nil => rfl
  | cons first front ih =>
    obtain ⟨hfirst, hrest⟩ := List.forall_mem_cons.1 hfront
    rw [List.flatMap_cons, List.count_append, count_lineBytes hfirst, ih hrest, List.length_cons]
    omega

theorem getLast?_flatMap_lineBytes (front : List String) :
    front.flatMap lineBytes = [] ∨ (front.flatMap lineBytes).getLast? = some newline := by
  rcases List.eq_nil_or_concat' front with rfl | ⟨init, last, rfl⟩
  · exact .inl rfl
  · refine .inr ?_
    rw [List.flatMap_append, List.flatMap_singleton, lineBytes, ← List.append_assoc,
      List.getLast?_concat]

/--
**Positions count newlines and bytes.** The lines of a file have no newlines, and joined with
newlines they are its text. A position has as many lines before it as there are newlines before the
offset, and as many bytes of its own line as come after the last of them. The offset is what the
lines before take, with their newlines, and the column.
-/
theorem positions_count_newlines (f : SourceFile) :
    ∃ lines : List String, lines.length = f.lineCount ∧
      (∀ i, f.line? i = lines[i]?) ∧ (∀ i, (f.line? i).isSome = true ↔ i < f.lineCount) ∧
      (∀ line ∈ lines, '\n' ∉ line.toList) ∧ "\n".intercalate lines = f.content ∧
      (∀ i line, f.line? i = some line →
        (Text.utf8 f.content).slice (lineOffset (lines.take i)) line.utf8ByteSize =
          Text.utf8 line) ∧
      ∀ o, let passed := (Text.utf8 f.content).take (min o f.size)
        (f.position o).line = passed.count newline ∧
        (f.position o).column = sinceNewline passed ∧
        lineOffset (lines.take (f.position o).line) + (f.position o).column = min o f.size ∧
        ∃ line, f.line? (f.position o).line = some line ∧
          (f.position o).column ≤ line.utf8ByteSize := by
  refine ⟨linesOf f.content, f.lineCount_eq.symm, fun i => rfl, fun i => ?_, fun line hline => ?_,
    Text.intercalate_pieces '\n' f.content, fun i line hline => ?_, fun o => ?_⟩
  · rw [line?, f.lineCount_eq, isSome_getElem?]
  · exact Text.not_mem_of_mem_pieces hline
  · obtain ⟨hi, rfl⟩ := List.getElem?_eq_some_iff.1 hline
    have hsplit : linesOf f.content = (linesOf f.content).take i ++
        (linesOf f.content)[i] :: (linesOf f.content).drop (i + 1) := by
      rw [List.getElem_cons_drop, List.take_append_drop]
    exact slice_utf8 hsplit
  · obtain ⟨front, line, back, hlines, hline, hcolumn, hoffset⟩ := f.exists_position o
    have hmem : ∀ other ∈ front, other ∈ linesOf f.content := by
      intro other hother
      rw [hlines]
      exact List.mem_append_left _ hother
    have hown : line ∈ linesOf f.content := by
      rw [hlines]
      exact List.mem_append_right _ List.mem_cons_self
    have hfree : newline ∉ (Text.utf8 line).take (f.position o).column :=
      fun h => newline_not_mem_utf8 hown (List.mem_of_mem_take h)
    intro passed
    have hpassed : passed =
        front.flatMap lineBytes ++ (Text.utf8 line).take (f.position o).column := by
      rw [← take_utf8 hlines hcolumn, hoffset]
    refine ⟨?_, ?_, ?_, line, ?_, hcolumn⟩
    · rw [hpassed, List.count_append, count_flatMap_lineBytes hmem,
        List.count_eq_zero_of_not_mem hfree, hline, Nat.add_zero]
    · rw [hpassed, sinceNewline_append (getLast?_flatMap_lineBytes front) hfree, List.length_take,
        Text.length_utf8, Nat.min_eq_left hcolumn]
    · rw [hlines, hline, List.take_left, hoffset]
    · rw [line?, hlines, hline, List.getElem?_append_right (Nat.le_refl _), Nat.sub_self,
        List.getElem?_cons_zero]

/-- A character of two bytes, an empty line, a newline at the end, and an offset past it. -/
theorem positions_count_newlines_clamped :
    let f : SourceFile := { index := 7, path := "A.sol", content := "é\n\nb\n" }
    f.lineCount = 4 ∧ (f.line? 3).isSome = true ∧ f.line? 0 = some "é" ∧
      (Text.utf8 f.content).slice 0 2 = Text.utf8 "é" ∧
      (f.position 2).line = 0 ∧ (f.position 2).column = 2 ∧
      (f.position 99).line = 3 ∧ (f.position 99).column = 0 := by
  intro f
  have hcount : f.lineCount = 4 := rfl
  have hsize : f.size = 6 := rfl
  have hfirst : f.line? 0 = some "é" := by decide
  obtain ⟨lines, -, -, hpresent, -, -, hslice, hposition⟩ := positions_count_newlines f
  obtain ⟨hline, hcolumn, -⟩ := hposition 2
  obtain ⟨hlineEnd, hcolumnEnd, -⟩ := hposition 99
  rw [hsize] at hline hcolumn hlineEnd hcolumnEnd
  exact ⟨hcount, (hpresent 3).2 (by omega), hfirst, hslice 0 "é" hfirst, hline.trans (by decide),
    hcolumn.trans (by decide), hlineEnd.trans (by decide), hcolumnEnd.trans (by decide)⟩

end SourceFile

end Solscope
