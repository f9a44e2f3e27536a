import Solscope.Text.Blank
import Solscope.Text.Cut
import Solscope.Text.Integer

/-!
# Line breakpoints

A breakpoint is a line of a source file, which is named by its path or by the last components of it.

* `Breakpoint.parse`: reads `source:line`, blanks around either side aside.
* `Breakpoint.covers`: whether a breakpoint is on a line of the file at a path.
* `sourceMatches_iff`: which paths a source stands for.
-/

namespace Solscope

/-- A line of a source file to stop at. -/
structure Breakpoint where
  /-- The path of the file, or the last components of it. -/
  source : String
  /-- The line, counted from 0. -/
  line : Nat
deriving DecidableEq, Repr

namespace Breakpoint

/-- Breakpoints are ordered by source, then by line. -/
instance : LT Breakpoint :=
  ⟨fun a b => a.source < b.source ∨ a.source = b.source ∧ a.line < b.line⟩

instance : DecidableLT Breakpoint := fun a b =>
  inferInstanceAs (Decidable (a.source < b.source ∨ a.source = b.source ∧ a.line < b.line))

instance : Std.Irrefl (α := Breakpoint) (· < ·) where
  irrefl b := by
    rintro (h | ⟨_, h⟩)
    · exact String.lt_irrefl _ h
    · exact Nat.lt_irrefl _ h

instance : Std.Trichotomous (α := Breakpoint) (· < ·) where
  trichotomous := by
    rintro ⟨s, m⟩ ⟨t, n⟩ hab hba
    have hst : s = t := String.le_antisymm (fun h => hba (.inl h)) (fun h => hab (.inl h))
    subst hst
    have hmn : m = n := Nat.le_antisymm (Nat.not_lt.1 fun h => hba (.inr ⟨rfl, h⟩))
      (Nat.not_lt.1 fun h => hab (.inr ⟨rfl, h⟩))
    rw [hmn]

/-- Why a text is no breakpoint. -/
inductive Error where
  /-- There is no colon. -/
  | noColon (text : String)
  /-- Nothing but blanks stands before the last colon. -/
  | emptySource (text : String)
  /-- What stands after the last colon is no line number. -/
  | line (reason : Text.IntegerError)
deriving DecidableEq, Repr

/-- The wording of an error. -/
def Error.message : Error → String
  | .noColon text => s!"Invalid breakpoint format. Expected <source>:<line>, got: {text}"
  | .emptySource text => s!"Breakpoint source is empty: {text}"
  | .line reason => s!"Invalid line number: {reason.message}"

/-- Reads a source and a line, which the last colon separates. -/
def parse (text : String) : Except Error Breakpoint :=
  match Text.cutLast? ':' (Text.trim text.toList) with
  | none => .error (.noColon text)
  | some (source, line) =>
    let source := Text.trim source
    if source.isEmpty then .error (.emptySource text)
    else match Text.readSize (Text.trim line) with
      | .ok line => .ok ⟨String.ofList source, line⟩
      | .error reason => .error (.line reason)

/-- Source and line with a colon between. -/
def text (b : Breakpoint) : String := b.source ++ ":" ++ toString b.line

end Breakpoint

/-- Whether `source` is `path` or follows a slash at the end of it. -/
def sourceMatches (source path : String) : Bool :=
  source = path ||
    ((Text.before? source.toList path.toList).bind fun directory => directory.getLast?) = some '/'

theorem sourceMatches_iff {source path : String} :
    sourceMatches source path = true ↔
      source = path ∨ ∃ directory, path = directory ++ "/" ++ source := by
  have hcut (directory : List Char) : path.toList = directory ++ '/' :: source.toList ↔
      path = String.ofList directory ++ "/" ++ source := by
    rw [← String.toList_inj]
    simp
  simp only [sourceMatches, Bool.or_eq_true, decide_eq_true_eq]
  refine or_congr_right ⟨fun h => ?_, fun ⟨directory, h⟩ => ?_⟩
  · obtain ⟨front, hfront, hslash⟩ := Option.bind_eq_some_iff.1 h
    obtain ⟨directory, rfl⟩ := List.getLast?_eq_some_iff.1 hslash
    refine ⟨String.ofList directory, (hcut directory).1 ?_⟩
    rw [Text.before?_eq_some_iff.1 hfront, List.append_assoc, List.singleton_append]
  · have hpath := (hcut directory.toList).2 (by rw [String.ofList_toList]; exact h)
    refine Option.bind_eq_some_iff.2 ⟨directory.toList ++ ['/'], ?_, by simp⟩
    rw [Text.before?_eq_some_iff, hpath, List.append_assoc, List.singleton_append]

/-- Whether a breakpoint is on line `line` of the file at `path`. -/
def Breakpoint.covers (b : Breakpoint) (path : String) (line : Nat) : Bool :=
  b.line = line && sourceMatches b.source path

/-- A breakpoint that an editor asks for. -/
structure BreakpointRequest where
  line : Nat
  /-- The column an editor may send along; it carries no meaning here. -/
  column : Option Nat := none
  source : String
deriving DecidableEq, Repr

/-- The breakpoint asked for. -/
def BreakpointRequest.breakpoint (r : BreakpointRequest) : Breakpoint := ⟨r.source, r.line⟩

end Solscope
