/-!
# Instructions

The few facts about instruction bytes that tracing needs: how many operand bytes follow, and which
instructions open a frame, run foreign code on the own account, or hash memory.
-/

namespace Solscope.Opcode

/-- Hashing a stretch of memory. -/
def keccak : UInt8 := 0x20

/-- A call that runs another account's code on the caller's own account. -/
def delegateCall : UInt8 := 0xF4

/-- The operand bytes after an instruction: `PUSH1` to `PUSH32` have 1 to 32, all others none. -/
def operandLength (op : UInt8) : Nat :=
  if 0x60 ≤ op.toNat ∧ op.toNat ≤ 0x7F then op.toNat - 0x5F else 0

/-- The instructions that open a frame: the creations and the calls. -/
def opensFrame (op : UInt8) : Bool :=
  op ∈ [0xF0, 0xF1, 0xF2, 0xF4, 0xF5, 0xFA]

/-- Whether an instruction is a delegate call. -/
def isDelegateCall (op : UInt8) : Bool := op = delegateCall

/-- Whether an instruction hashes memory. -/
def isHash (op : UInt8) : Bool := op = keccak

/-- The offset between an instruction and the next one. -/
def stride (op : UInt8) : Nat := 1 + operandLength op

end Solscope.Opcode
