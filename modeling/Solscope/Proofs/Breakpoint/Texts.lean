import Solscope.Breakpoint
import Solscope.Proofs.Text.Integer
import Solscope.Proofs.Text.Trimming

/-!
# Texts of breakpoints

A breakpoint is written as its source and its line with a colon between. Reading allows blanks
around both, a plus sign and leading zeros, so a breakpoint has many texts besides the one that is
written.

* `Breakpoint.parse_eq_ok_iff`: the texts of a breakpoint.
* `Breakpoint.IsTidy`: the breakpoints that have a text.
* `Breakpoint.texts_correspond`: **the text that is written is read back** for just those.
-/

namespace Solscope.Breakpoint

variable {b : Breakpoint} {text : String}

/-- The source has something in it but no blank at either end, and the line is a size. -/
structure IsTidy (b : Breakpoint) : Prop where
  source_ne : b.source ≠ ""
  trimmed : Text.IsTrimmed b.source.toList
  line_le : b.line ≤ Size.largest

/-! ## Reading -/

/--
The last colon of a text separates source and line. The source is not blank, and the line is spelled
by decimal digits, maybe after a plus sign.
-/
theorem parse_eq_ok_iff : parse text = .ok b ↔ ∃ left right : List Char,
    Text.trim text.toList = left ++ ':' :: right ∧ ':' ∉ right ∧
      b.source = String.ofList (Text.trim left) ∧ Text.trim left ≠ [] ∧
      Text.readSize (Text.trim right) = .ok b.line := by
  unfold parse
  constructor
  · intro h
    split at h
    · cases h
    · rename_i left right hcut
      dsimp only at h
      split at h
      · cases h
      · rename_i hsource
        split at h
        · rename_i line hline
          obtain rfl := Except.ok.inj h
          obtain ⟨htext, hright⟩ := Text.cutLast?_eq_some_iff.1 hcut
          exact ⟨left, right, htext, hright, rfl, by simpa using hsource, hline⟩
        · cases h
  · rintro ⟨left, right, htext, hright, hsource, hne, hline⟩
    rw [htext, Text.cutLast?_append left hright]
    dsimp only
    rw [if_neg (by simpa using hne), hline, ← hsource]

theorem isTidy_of_parse (h : parse text = .ok b) : b.IsTidy := by
  obtain ⟨left, right, -, -, hsource, hne, hline⟩ := parse_eq_ok_iff.1 h
  obtain ⟨-, hle⟩ := Text.readNat_eq_ok_iff.1 hline
  refine ⟨?_, ?_, hle⟩
  · rw [hsource, Ne, String.ofList_eq_empty_iff]
    exact hne
  · rw [hsource, String.toList_ofList]
    exact Text.isTrimmed_trim left

/-! ## Writing -/

/-- The digits of a line. -/
def digits (b : Breakpoint) : List Char := (toString b.line).toList

theorem toList_text (b : Breakpoint) : b.text.toList = b.source.toList ++ ':' :: b.digits := by
  rw [text, String.toList_append, String.toList_append, List.append_assoc]
  rfl

theorem spellsNat_digits (b : Breakpoint) : Text.SpellsNat b.digits b.line :=
  Text.spellsNat_repr b.line

theorem isBlank_of_isDigit {c : Char} (h : c.isDigit = true) : Text.isBlank c = false := by
  obtain ⟨hlow, hhigh⟩ := Text.isDigit_iff.1 h
  have hlow' : 48 ≤ c.toNat := hlow
  have hhigh' : c.toNat ≤ 57 := hhigh
  simp only [Text.isBlank, Bool.or_eq_false_iff, Bool.and_eq_false_iff, decide_eq_false_iff_not]
  omega

theorem solid_digits (b : Breakpoint) : ∀ c ∈ b.digits, Text.isBlank c = false :=
  fun c hc => isBlank_of_isDigit (b.spellsNat_digits.2.1 c hc)

theorem colon_not_mem_digits (b : Breakpoint) : ':' ∉ b.digits := by
  intro hcolon
  have hdigit := b.spellsNat_digits.2.1 ':' hcolon
  cases hdigit

/-- The text that is written has no blank at either end. -/
theorem IsTidy.isTrimmed_text (h : b.IsTidy) : Text.IsTrimmed b.text.toList := by
  have hsource : b.source.toList ≠ [] := fun hnil => h.source_ne (String.toList_eq_nil_iff.1 hnil)
  rw [toList_text]
  constructor
  · rw [List.head?_append_of_ne_nil _ hsource]
    exact h.trimmed.1
  · intro c hc
    rw [List.getLast?_append_cons, List.getLast?_cons_of_ne_nil b.spellsNat_digits.1] at hc
    exact b.solid_digits c (List.mem_of_getLast? hc)

/-- **The text that is written is read back.** -/
theorem IsTidy.parse_text (h : b.IsTidy) : parse b.text = .ok b := by
  have htrim : Text.trim b.source.toList = b.source.toList := Text.trim_eq_self_iff.2 h.trimmed
  refine parse_eq_ok_iff.2 ⟨b.source.toList, b.digits, ?_, b.colon_not_mem_digits, ?_, ?_, ?_⟩
  · rw [Text.trim_eq_self_iff.2 h.isTrimmed_text, toList_text]
  · rw [htrim, String.ofList_toList]
  · rw [htrim]
    exact fun hnil => h.source_ne (String.toList_eq_nil_iff.1 hnil)
  · rw [Text.trim_eq_self b.solid_digits]
    exact Text.readNat_eq_ok_iff.2 ⟨.inl b.spellsNat_digits, h.line_le⟩

/--
**The text that is written is read back.** Whatever text a breakpoint is read from, writing it and
reading that again gives the same breakpoint. The breakpoints that can be read are just those whose
source is not empty and has no blank at either end, for lines that are sizes; whatever colons and
blanks the source has in it, each of these is read back from the text that is written.
-/
theorem texts_correspond :
    (∀ text b, parse text = .ok b → parse b.text = .ok b) ∧
    (∀ b : Breakpoint, (∃ text, parse text = .ok b) ↔
      b.source ≠ "" ∧ Text.IsTrimmed b.source.toList ∧ b.line ≤ Size.largest) ∧
    ∀ b : Breakpoint, b.source ≠ "" → Text.IsTrimmed b.source.toList → b.line ≤ Size.largest →
      parse b.text = .ok b := by
  have hwritten : ∀ b : Breakpoint, b.source ≠ "" → Text.IsTrimmed b.source.toList →
      b.line ≤ Size.largest → parse b.text = .ok b :=
    fun b hsource htrimmed hline => IsTidy.parse_text ⟨hsource, htrimmed, hline⟩
  refine ⟨fun text b h => (isTidy_of_parse h).parse_text, fun b => ⟨?_, ?_⟩, hwritten⟩
  · rintro ⟨text, h⟩
    have htidy := isTidy_of_parse h
    exact ⟨htidy.source_ne, htidy.trimmed, htidy.line_le⟩
  · rintro ⟨hsource, htrimmed, hline⟩
    exact ⟨b.text, hwritten b hsource htrimmed hline⟩

/-- A source with colons, digits and blanks in it, from a text with blanks around. -/
theorem texts_correspond_colons :
    let b : Breakpoint := ⟨"C:/a :7", 10⟩
    parse "\t C:/a :7 : +010\n" = .ok b ∧ b.text = "C:/a :7:10" ∧ parse b.text = .ok b ∧
      ¬ ∃ text, parse text = .ok ⟨"a.sol ", 10⟩ := by
  intro b
  obtain ⟨hread, htidy, -⟩ := texts_correspond
  have hb : parse "\t C:/a :7 : +010\n" = .ok b := by decide +kernel
  refine ⟨hb, by decide +kernel, hread _ b hb, fun h => ?_⟩
  obtain ⟨-, ⟨-, hlast⟩, -⟩ := (htidy _).1 h
  exact absurd (hlast ' ' rfl) (by decide)

end Solscope.Breakpoint
