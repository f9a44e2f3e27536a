import Solscope.Run.CallStack
import Solscope.Run.Stepper
import Solscope.Wire.Outline

/-!
# Runs as JSON

What a run is doing, for looking at: frames with the outermost call first, source positions as
pairs, and what execution runs to as a text.
-/

namespace Solscope

/-- A jump as its letter. -/
def Jump.outline (j : Jump) : Json := .str (String.singleton j.letter)

/-- A line and a column. -/
def Position.outline (p : Position) : Json := Json.pair (.nat p.line) (.nat p.column)

/-- Everything about a span. -/
def Span.outline (s : Span) : Json := .obj [
  ("file", .nat s.file), ("path", .str s.path), ("start", s.start.outline), ("end", s.stop.outline),
  ("offset", .nat s.offset), ("length", .nat s.length), ("extent", s.extent.outline)]

/-- Everything about a mapping. -/
def Mapping.outline (m : Mapping) : Json := .obj [
  ("pc", .nat m.pc), ("jump", m.jump.outline), ("span", Json.option Span.outline m.span)]

/-- The offset of an instruction and its jump. -/
def Mapping.brief (m : Mapping) : Json := Json.pair (.nat m.pc) m.jump.outline

/-- What execution runs to. -/
def StepMode.text : StepMode → String
  | .running => "running"
  | .into => "stepInto"
  | .over depth => s!"stepOver@{depth}"
  | .out depth => s!"stepOut@{depth}"

/-- What execution runs to, as JSON. -/
def StepMode.outline (m : StepMode) : Json := .str m.text

/-- Everything about a call. -/
def Call.outline (c : Call) : Json := .obj [
  ("method", c.method.outline), ("stack_offset", .nat c.stackOffset),
  ("pc", Json.option (fun m => .nat m.pc) c.mapping), ("modifier", Json.option .nat c.modifier),
  ("entered", .bool c.entered)]

/-- Everything about a frame. -/
def Frame.outline (f : Frame) : Json := .obj [
  ("address", .str f.address.toBytes.hex), ("code_address", .str f.codeAddress.toBytes.hex),
  ("creation", .bool f.creation), ("calldata", .str f.input.hex), ("stack_base", .nat f.stackBase),
  ("stack", .arr (f.stack.map fun w => .str (toString w.toNat))), ("memory", .str f.memory.hex),
  ("state", .str (if f.isAwaiting then "awaiting" else "running")),
  ("calls", .arr (f.calls.reverse.map Call.outline))]

/-- All frames. -/
def CallStack.outline (c : CallStack) : Json := .arr (c.frames.map Frame.outline)

end Solscope
