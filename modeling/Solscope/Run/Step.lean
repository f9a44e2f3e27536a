import Solscope.Address
import Solscope.Size

/-!
# Steps of a run
-/

namespace Solscope

/-- The state of the machine before an instruction. -/
structure Step where
  /-- The offset of the instruction. -/
  pc : Nat
  opcode : UInt8
  /-- How many frames are below this one. -/
  depth : Nat
  /-- The frames up to this one can be counted. -/
  depth_lt : depth < Size.largest := by decide
  /-- The account that the code acts for. -/
  address : Address
  /-- Whether the code creates a contract. -/
  creation : Bool
  /-- The operand stack, bottom first. -/
  stack : List Word
  memory : Bytes
  /-- The input of the frame. -/
  input : Bytes
deriving DecidableEq, Repr

/-- The word below the top of the stack. -/
def Step.second? (s : Step) : Option Word :=
  if 2 ≤ s.stack.length then s.stack[s.stack.length - 2]? else none

end Solscope
