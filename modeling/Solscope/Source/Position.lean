import Solscope.Size

/-!
# Positions in source files

Lines and columns count from 0, columns in bytes. A `SourceRange` is what the compiler writes, a
byte offset and a length in a numbered file; an `Extent` is the same place in lines and columns,
and a `Span` carries both together with the path of the file.
-/

namespace Solscope

/-- A line and a byte column. -/
structure Position where
  line : Nat
  column : Nat
deriving DecidableEq, Repr

namespace Position

/-- Positions are ordered by line, then by column. -/
instance : LT Position :=
  ⟨fun p q => p.line < q.line ∨ p.line = q.line ∧ p.column < q.column⟩

/-- A position is at most another unless that one comes before it. -/
instance : LE Position := ⟨fun p q => ¬ q < p⟩

instance (p q : Position) : Decidable (p < q) :=
  inferInstanceAs (Decidable (p.line < q.line ∨ p.line = q.line ∧ p.column < q.column))

instance (p q : Position) : Decidable (p ≤ q) := inferInstanceAs (Decidable (¬ q < p))

theorem lt_iff {p q : Position} : p < q ↔ p.line < q.line ∨ p.line = q.line ∧ p.column < q.column :=
  Iff.rfl

/-- Line and column with a colon between. -/
def text (p : Position) : String := toString p.line ++ ":" ++ toString p.column

end Position

/-- A byte range of a source file. -/
structure SourceRange where
  /-- The compiler's number of the file. -/
  file : Nat
  /-- The offset of the first byte. -/
  start : Nat
  /-- The number of bytes. -/
  length : Nat
deriving DecidableEq, Repr

/-- The offset after the last byte. -/
def SourceRange.stop (r : SourceRange) : Nat := r.start + r.length

/-- The positions of a file from `start` up to, but not including, `stop`. -/
structure Extent where
  file : Nat
  start : Position
  stop : Position
deriving DecidableEq, Repr

namespace Extent

/-- Whether a position of `file` lies in the extent. -/
def contains (e : Extent) (file : Nat) (p : Position) : Bool :=
  e.file = file ∧ e.start ≤ p ∧ p < e.stop

/-- The file number and the half-open interval of positions. -/
def text (e : Extent) : String :=
  "#" ++ toString e.file ++ "[" ++ e.start.text ++ ", " ++ e.stop.text ++ ")"

end Extent

/-- A source range together with its path and positions. -/
structure Span where
  file : Nat
  path : String
  start : Position
  stop : Position
  /-- The offset of the first byte. -/
  offset : Nat
  /-- The number of bytes. -/
  length : Nat
deriving DecidableEq, Repr

/-- The positions a span covers. -/
def Span.extent (s : Span) : Extent := ⟨s.file, s.start, s.stop⟩

end Solscope
