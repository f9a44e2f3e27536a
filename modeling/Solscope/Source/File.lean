import Solscope.Ordered
import Solscope.Source.Position
import Solscope.Text.Utf8

/-!
# Source files

A file is its text cut at newlines. `SourceFile.position` turns byte offsets into positions, and
`Sources` holds the files of a compilation by the compiler's numbers.
-/

namespace Solscope

/-- The lines of a text, without the newlines between them. -/
def linesOf (content : String) : List String :=
  (content.toList.splitOn '\n').map String.ofList

/-- The bytes of every line. -/
def lineWidthsOf (content : String) : List Nat :=
  (content.toList.splitOn '\n').map fun line => (Text.encode line).length

/-- A source file. -/
structure SourceFile where
  /-- The compiler's number of the file. -/
  index : Nat
  path : String
  content : String
  /-- The bytes of every line, kept for finding positions. -/
  lineWidths : List Nat := lineWidthsOf content
  lineWidths_eq : lineWidths = lineWidthsOf content := by rfl

namespace SourceFile

/-- The number of bytes. -/
def size (f : SourceFile) : Nat := f.content.utf8ByteSize

/--
The position `offset` bytes after the start of line `line`, given the widths of that line and those
after it. An offset right after the last byte of a line is the newline, which belongs to it.
-/
def locate (line : Nat) : (widths : List Nat) → (offset : Nat) → Position
  | width :: next :: rest, offset =>
    if offset ≤ width then ⟨line, offset⟩
    else locate (line + 1) (next :: rest) (offset - (width + 1))
  | _, offset => ⟨line, offset⟩

/-- The position of a byte offset; offsets past the end are read as the end. -/
def position (f : SourceFile) (offset : Nat) : Position :=
  locate 0 f.lineWidths (min offset f.size)

/-- The number of lines, one more than there are newlines. -/
def lineCount (f : SourceFile) : Nat := f.lineWidths.length

/-- A line without its newline. -/
def line? (f : SourceFile) (line : Nat) : Option String := (linesOf f.content)[line]?

end SourceFile

/-- The source files of a compilation. -/
structure Sources where
  /-- The files by their numbers, in increasing order. -/
  files : List (Nat × SourceFile) := []

namespace Sources

/-- Adds a file, in place of one with the same number. -/
def add (s : Sources) (index : Nat) (path content : String) : Sources :=
  ⟨Ordered.insert index { index, path, content } s.files⟩

/-- The file with a number. -/
def get? (s : Sources) (index : Nat) : Option SourceFile := Ordered.find? index s.files

/-- The files in the order of their numbers. -/
def toList (s : Sources) : List SourceFile := s.files.map Prod.snd

/-- The first file with a path. -/
def byPath? (s : Sources) (path : String) : Option SourceFile :=
  s.toList.find? fun f => f.path = path

/-- The positions a range covers, if its file is known. -/
def extent? (s : Sources) (r : SourceRange) : Option Extent :=
  (s.get? r.file).map fun f => ⟨r.file, f.position r.start, f.position r.stop⟩

/-- The span of a range, if its file is known. -/
def span? (s : Sources) (r : SourceRange) : Option Span :=
  (s.get? r.file).map fun f =>
    ⟨r.file, f.path, f.position r.start, f.position r.stop, r.start, r.length⟩

end Sources

end Solscope
