import Solscope.Breakpoint
import Solscope.Json.Basic
import Solscope.SourceMap

/-!
# What a pause shows

A pause names the line it is at and shows the calls that lead there, the innermost one first, each
with the variables that can be read.
-/

namespace Solscope

/-- The line at which execution pauses. -/
structure Hit where
  line : Nat
  /-- The path of the source file. -/
  source : String
deriving DecidableEq, Repr

/-- The place of an instruction. -/
structure MappingInfo where
  pc : Nat
  line : Nat
  column : Nat
  /-- The compiler's number of the source file. -/
  file : Nat
  /-- The path of the source file. -/
  source : String
  /-- The letter of the jump. -/
  jump : Char
deriving DecidableEq, Repr

/-- The place of a mapping, unless the compiler made the instruction up. -/
def MappingInfo.ofMapping? (m : Mapping) : Option MappingInfo :=
  m.span.map fun span =>
    ⟨m.pc, span.start.line, span.start.column, span.file, span.path, m.jump.letter⟩

/-- A variable with its value. -/
structure ShownVariable where
  name : String
  /-- The name of the type. -/
  type : String
  value : Json

/-- A call with its variables. -/
structure ShownCall where
  /-- The names of contract and method, and of the modifier that runs. -/
  name : String
  /-- The instruction that the call is at. -/
  mapping : Option MappingInfo := none
  /-- The state variables of the contract. -/
  storage : List ShownVariable := []
  /-- Arguments, results and local variables. -/
  vars : List ShownVariable := []
  /-- Why there are no state variables. -/
  error : Option String := none

/-- What a pause shows. -/
structure Notification where
  hit : Hit
  /-- The calls, the innermost one first. -/
  calls : List ShownCall := []

/-- What makes a pause end. -/
inductive Command where
  /-- Run to the next breakpoint. -/
  | resume
  /-- Run to the next line. -/
  | stepInto
  /-- Run to the next line that is in no deeper call. -/
  | stepOver
  /-- Run to the next line of a caller. -/
  | stepOut
deriving DecidableEq, Repr

end Solscope
