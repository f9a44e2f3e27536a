import Solscope.Json.Record
import Solscope.SourceMap
import Solscope.Ty.Basic

/-!
# Places and types of jumps and data as JSON
-/

namespace Solscope

namespace Position

/-- A position as JSON. -/
def toJson (p : Position) : Json := .obj [("line", .nat p.line), ("column", .nat p.column)]

/-- The position that a JSON value describes. -/
def ofJson? (j : Json) : Option Position := do
  let [line, column] ← Json.fields? [["line"], ["column"]] j | none
  return ⟨← Json.required Json.asSize? line, ← Json.required Json.asSize? column⟩

end Position

namespace SourceRange

/-- A range as JSON. -/
def toJson (r : SourceRange) : Json :=
  .obj [("file", .nat r.file), ("start", .nat r.start), ("length", .nat r.length)]

/-- The range that a JSON value describes. -/
def ofJson? (j : Json) : Option SourceRange := do
  let [file, start, length] ← Json.fields? [["file"], ["start"], ["length"]] j | none
  return ⟨← Json.required Json.asSize? file, ← Json.required Json.asSize? start,
    ← Json.required Json.asSize? length⟩

end SourceRange

namespace Extent

/-- An extent as JSON. -/
def toJson (e : Extent) : Json :=
  .obj [("file", .nat e.file), ("start", e.start.toJson), ("end", e.stop.toJson)]

/-- The extent that a JSON value describes. -/
def ofJson? (j : Json) : Option Extent := do
  let [file, start, stop] ← Json.fields? [["file"], ["start"], ["end"]] j | none
  return ⟨← Json.required Json.asSize? file, ← Json.required Position.ofJson? start,
    ← Json.required Position.ofJson? stop⟩

end Extent

namespace Jump

/-- The names of the jumps. -/
def names : List (String × Jump) := [("In", .into), ("Out", .out), ("Regular", .regular)]

/-- A jump as JSON. -/
def toJson (j : Jump) : Json := .str (Json.nameOf names j)

/-- The jump that a JSON value names. -/
def ofJson? (j : Json) : Option Jump := Json.oneOf? names j

end Jump

namespace Location

/-- The names of the locations. -/
def names : List (String × Location) :=
  [("Stack", .stack), ("Memory", .memory), ("Calldata", .calldata), ("Storage", .storage)]

/-- A location as JSON. -/
def toJson (l : Location) : Json := .str (Json.nameOf names l)

/-- The location that a JSON value names. -/
def ofJson? (j : Json) : Option Location := Json.oneOf? names j

end Location

end Solscope
