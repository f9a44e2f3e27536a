import Solscope.Json.Record
import Solscope.Pause.Notification

/-!
# Breakpoints, commands and pauses as JSON

* `Breakpoint`, `BreakpointRequest`, `Command`: what is sent to the debugger.
* `Notification`: what it sends when execution pauses.
-/

namespace Solscope

/-- A member of an object, if there is something to write. -/
def Json.memberIf {α : Type} (name : String) (write : α → Json) : Option α → List (String × Json)
  | none => []
  | some a => [(name, write a)]

namespace Breakpoint

/-- A breakpoint as JSON. -/
def toJson (b : Breakpoint) : Json := .obj [("source", .str b.source), ("line", .nat b.line)]

/-- The breakpoint that a JSON value describes. -/
def ofJson? (j : Json) : Option Breakpoint := do
  let [source, line] ← Json.fields? [["source"], ["line"]] j | none
  return ⟨← Json.required Json.asStr? source, ← Json.required Json.asSize? line⟩

end Breakpoint

namespace BreakpointRequest

/-- A request as JSON. -/
def toJson (r : BreakpointRequest) : Json :=
  .obj <| ("line", .nat r.line) :: Json.memberIf "column" .nat r.column ++
    [("source", .str r.source)]

/-- The request that a JSON value describes. -/
def ofJson? (j : Json) : Option BreakpointRequest := do
  let [line, column, source] ← Json.fields? [["line"], ["column"], ["source"]] j | none
  return {
    line := ← Json.required Json.asSize? line
    column := ← Json.defaulting none (Json.nullable Json.asSize?) column
    source := ← Json.required Json.asStr? source }

end BreakpointRequest

namespace Command

/-- The names of the commands. -/
def names : List (String × Command) :=
  [("resume", .resume), ("stepInto", .stepInto), ("stepOver", .stepOver), ("stepOut", .stepOut)]

/-- The name of a command. -/
def text (c : Command) : String := Json.nameOf names c

/-- A command as JSON. -/
def toJson (c : Command) : Json := .str c.text

/-- The command that a JSON value names. -/
def ofJson? (j : Json) : Option Command := Json.oneOf? names j

end Command

namespace Hit

/-- A line as JSON. -/
def toJson (h : Hit) : Json := .obj [("line", .nat h.line), ("source", .str h.source)]

/-- The line that a JSON value describes. -/
def ofJson? (j : Json) : Option Hit := do
  let [line, source] ← Json.fields? [["line"], ["source"]] j | none
  return ⟨← Json.required Json.asSize? line, ← Json.required Json.asStr? source⟩

end Hit

namespace MappingInfo

/-- A place as JSON. -/
def toJson (m : MappingInfo) : Json := .obj [
  ("pc", .nat m.pc), ("line", .nat m.line), ("column", .nat m.column), ("fileIndex", .nat m.file),
  ("source", .str m.source), ("jump", .str (String.singleton m.jump))]

/-- The place that a JSON value describes. -/
def ofJson? (j : Json) : Option MappingInfo := do
  let [pc, line, column, file, source, jump] ←
    Json.fields? [["pc"], ["line"], ["column"], ["fileIndex"], ["source"], ["jump"]] j | none
  return {
    pc := ← Json.required Json.asSize? pc
    line := ← Json.required Json.asSize? line
    column := ← Json.required Json.asSize? column
    file := ← Json.required Json.asSize? file
    source := ← Json.required Json.asStr? source
    jump := ← Json.required Json.asChar? jump }

end MappingInfo

namespace ShownVariable

/-- A variable as JSON. -/
def toJson (v : ShownVariable) : Json :=
  .obj [("name", .str v.name), ("type", .str v.type), ("value", v.value)]

/-- The variable that a JSON value describes, given how values of variables are read. -/
def ofJson? (readValue : Json → Option Json) (j : Json) : Option ShownVariable := do
  let [name, type, value] ← Json.fields? [["name"], ["type"], ["value"]] j | none
  return {
    name := ← Json.required Json.asStr? name
    type := ← Json.required Json.asStr? type
    value := ← Json.required readValue value }

end ShownVariable

namespace ShownCall

/-- A call as JSON. -/
def toJson (c : ShownCall) : Json :=
  .obj ([("name", .str c.name), ("mapping", Json.option MappingInfo.toJson c.mapping),
    ("storage", .arr (c.storage.map ShownVariable.toJson)),
    ("vars", .arr (c.vars.map ShownVariable.toJson))] ++ Json.memberIf "error" .str c.error)

/-- The call that a JSON value describes, given how values of variables are read. -/
def ofJson? (readValue : Json → Option Json) (j : Json) : Option ShownCall := do
  let [name, mapping, storage, vars, error] ←
    Json.fields? [["name"], ["mapping"], ["storage"], ["vars"], ["error"]] j | none
  return {
    name := ← Json.required Json.asStr? name
    mapping := ← Json.defaulting none (Json.nullable MappingInfo.ofJson?) mapping
    storage := ← Json.required (Json.asList? (ShownVariable.ofJson? readValue)) storage
    vars := ← Json.required (Json.asList? (ShownVariable.ofJson? readValue)) vars
    error := ← Json.defaulting none (Json.nullable Json.asStr?) error }

end ShownCall

namespace Notification

/-- A pause as JSON. -/
def toJson (n : Notification) : Json :=
  .obj [("breakpoint", n.hit.toJson), ("callStack", .arr (n.calls.map ShownCall.toJson))]

/-- The pause that a JSON value describes, given how values of variables are read. -/
def ofJson? (readValue : Json → Option Json) (j : Json) : Option Notification := do
  let [hit, calls] ← Json.fields? [["breakpoint"], ["callStack"]] j | none
  return ⟨← Json.required Hit.ofJson? hit,
    ← Json.required (Json.asList? (ShownCall.ofJson? readValue)) calls⟩

end Notification

end Solscope
