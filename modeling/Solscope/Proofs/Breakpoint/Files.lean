import Solscope.Breakpoint
import Solscope.Proofs.Text.Pieces

/-!
# Which files a breakpoint is for

A breakpoint names a file by the last components of its path.

* `components`: what stands between the slashes of a path.
* `components_suffix_iff`: a source stands for a path if its components are the last ones.
* `sourceMatches_utf8_iff`: comparing bytes comes to the same.
* `sourceMatches_components`: **sources stand for paths by whole components**, which orders them.
-/

namespace Solscope

/-- What stands between the slashes of a path. -/
def components (path : String) : List String := Text.pieces '/' path

variable {s t u : String}

theorem components_inj : components s = components t ↔ s = t := Text.pieces_inj

theorem components_suffix_iff : components s <:+ components t ↔ sourceMatches s t = true := by
  rw [sourceMatches_iff]
  exact Text.pieces_suffix_iff

theorem sourceMatches_refl (s : String) : sourceMatches s s = true :=
  components_suffix_iff.1 (List.suffix_refl _)

theorem sourceMatches_trans (h : sourceMatches s t = true) (h' : sourceMatches t u = true) :
    sourceMatches s u = true := by
  rw [← components_suffix_iff] at h h' ⊢
  exact h.trans h'

theorem sourceMatches_antisymm (h : sourceMatches s t = true) (h' : sourceMatches t s = true) :
    s = t := by
  rw [← components_suffix_iff] at h h'
  exact components_inj.1 (h.eq_of_length_le h'.length_le)

/-- A source that is the end of a path stands for it unless it starts inside a component. -/
theorem sourceMatches_append_iff (front s : String) :
    sourceMatches s (front ++ s) = true ↔ front = "" ∨ ∃ directory, front = directory ++ "/" := by
  have hself : s = front ++ s ↔ front = "" := by
    rw [← String.toList_inj, String.toList_append, List.self_eq_append_left,
      String.toList_eq_nil_iff]
  have hslash (directory : String) :
      front ++ s = directory ++ "/" ++ s ↔ front = directory ++ "/" := by
    rw [← String.toList_inj, String.toList_append, String.toList_append,
      List.append_cancel_right_eq, String.toList_inj]
  rw [sourceMatches_iff, hself]
  exact or_congr_right (exists_congr hslash)

/-- A source stands for paths that end with it only. -/
theorem exists_of_sourceMatches (h : sourceMatches s t = true) : ∃ front, t = front ++ s := by
  rcases sourceMatches_iff.1 h with rfl | ⟨directory, hdirectory⟩
  · exact ⟨"", by rw [String.empty_append]⟩
  · exact ⟨directory ++ "/", hdirectory⟩

/-- The bytes of a path are cut at slashes like its characters. -/
theorem splitOn_utf8_path (path : String) :
    (Text.utf8 path).splitOn 0x2F = (components path).map Text.utf8 :=
  Text.splitOn_utf8 (c := '/') (by decide) path

/-- It makes no difference whether characters or bytes are compared. -/
theorem sourceMatches_utf8_iff : sourceMatches s t = true ↔
    s = t ∨ ∃ front, Text.utf8 t = front ++ 0x2F :: Text.utf8 s := by
  constructor
  · intro h
    rcases sourceMatches_iff.1 h with rfl | ⟨directory, rfl⟩
    · exact .inl rfl
    · have hslash : Text.utf8 "/" = [0x2F] := rfl
      refine .inr ⟨Text.utf8 directory, ?_⟩
      rw [Text.utf8_append, Text.utf8_append, hslash, List.append_assoc, List.singleton_append]
  · rintro (rfl | ⟨front, hfront⟩)
    · exact sourceMatches_refl _
    · have hsplit := splitOn_utf8_path t
      rw [hfront, List.splitOn_append_cons_self, splitOn_utf8_path] at hsplit
      obtain ⟨first, last, hcomponents, -, hlast⟩ := List.map_eq_append_iff.1 hsplit.symm
      rw [← components_suffix_iff, hcomponents, List.map_injective_iff.2 Text.utf8_injective hlast]
      exact List.suffix_append _ _

/--
**Sources stand for paths by whole components.** A source stands for a path just if its components
are the last ones of the path, and that can be told from the bytes of both. So every path stands for
itself; if a source stands for another one and that for a path, then the first one stands for the
path; and two sources stand for one another only if they are the same. A path ends with every source
that stands for it, and what comes before is nothing or ends with a slash. A breakpoint is on a line
of just the files that its source stands for.
-/
theorem sourceMatches_components :
    (∀ source path, sourceMatches source path = true ↔
      components source <:+ components path) ∧
    (∀ source path, sourceMatches source path = true ↔
      source = path ∨ ∃ front, Text.utf8 path = front ++ 0x2F :: Text.utf8 source) ∧
    (∀ path, sourceMatches path path = true) ∧
    (∀ s t u, sourceMatches s t = true → sourceMatches t u = true → sourceMatches s u = true) ∧
    (∀ s t, sourceMatches s t = true → sourceMatches t s = true → s = t) ∧
    (∀ source path, sourceMatches source path = true → ∃ front, path = front ++ source) ∧
    (∀ front source, sourceMatches source (front ++ source) = true ↔
      front = "" ∨ ∃ directory, front = directory ++ "/") ∧
    ∀ (b : Breakpoint) path line, b.covers path line = true ↔
      b.line = line ∧ components b.source <:+ components path := by
  refine ⟨fun source path => components_suffix_iff.symm, fun source path => sourceMatches_utf8_iff,
    sourceMatches_refl, fun s t u => sourceMatches_trans, fun s t => sourceMatches_antisymm,
    fun source path => exists_of_sourceMatches, sourceMatches_append_iff, fun b path line => ?_⟩
  rw [Breakpoint.covers, Bool.and_eq_true, decide_eq_true_eq, components_suffix_iff]

/-- A file and its directory, an empty component, and the middle of a component. -/
theorem sourceMatches_components_nested :
    components "src//A.sol" = ["src", "", "A.sol"] ∧
      sourceMatches "A.sol" "src//A.sol" = true ∧ sourceMatches "/A.sol" "src//A.sol" = true ∧
      sourceMatches "A.sol" "/abs/src//A.sol" = true ∧
      sourceMatches "A.sol" "src/BA.sol" = false := by
  obtain ⟨hsuffix, -, -, htrans, -, -, hfront, -⟩ := sourceMatches_components
  have hcomponents : components "src//A.sol" = ["src", "", "A.sol"] := by decide
  have hfile : sourceMatches "A.sol" "src//A.sol" = true := by
    refine (hsuffix _ _).2 ?_
    rw [hcomponents]
    exact ⟨["src", ""], rfl⟩
  have hempty : sourceMatches "/A.sol" "src//A.sol" = true := by
    refine (hsuffix _ _).2 ?_
    rw [hcomponents]
    exact ⟨["src"], rfl⟩
  have hpath : sourceMatches "src//A.sol" "/abs/src//A.sol" = true :=
    (hfront "/abs/" "src//A.sol").2 (.inr ⟨"/abs", rfl⟩)
  refine ⟨hcomponents, hfile, hempty, htrans _ _ _ hfile hpath, ?_⟩
  rw [← Bool.not_eq_true, hsuffix]
  decide

end Solscope
