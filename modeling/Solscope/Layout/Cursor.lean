import Solscope.Size
import Solscope.Word

/-!
# Cursors

A `SlotCursor` lays out storage: values are packed from the low end of a slot and move to the next
slot when they do not fit. A `HeadCursor` walks over the heads of encoded input.

* `SlotCursor.claim`: room for a value.
* `SlotCursor.claimSlots`: whole slots for everything else.
* `HeadCursor.take`: room for a head; offsets stop at the largest size.
-/

namespace Solscope

/-- A byte of a storage slot. -/
structure SlotCursor where
  slot : Word
  /-- The bytes of the slot already taken. -/
  offset : Nat := 0
deriving DecidableEq, Repr

namespace SlotCursor

/-- The start of the storage. -/
def origin : SlotCursor := ⟨0, 0⟩

/-- Where the next value of `size` bytes goes: here, or to the next slot if it does not fit. -/
def fit (c : SlotCursor) (size : Nat) : SlotCursor :=
  if 32 < c.offset + size then ⟨c.slot + 1, 0⟩ else c

/-- The cursor after a value of `size` bytes that starts here. -/
def skip (c : SlotCursor) (size : Nat) : SlotCursor := ⟨c.slot, c.offset + size⟩

/-- Where a value of `size` bytes starts, and the cursor after it. -/
def claim (c : SlotCursor) (size : Nat) : SlotCursor × SlotCursor :=
  (c.fit size, (c.fit size).skip size)

/-- Values do not cross the end of a slot. -/
theorem claim_end_le {c : SlotCursor} {size : Nat} (hs : size ≤ 32) :
    (c.claim size).1.offset + size ≤ 32 := by
  simp only [claim, fit]
  split
  · simpa using hs
  · omega

/-- The start of the next slot of which nothing is taken. -/
def align (c : SlotCursor) : SlotCursor := if 0 < c.offset then ⟨c.slot + 1, 0⟩ else c

/-- The cursor after whole slots. -/
def advance (c : SlotCursor) (slots : Nat) : SlotCursor := ⟨c.slot + Word.ofNat slots, 0⟩

/-- Where data of whole slots starts, and the cursor after it. -/
def claimSlots (c : SlotCursor) (slots : Nat) : SlotCursor × SlotCursor :=
  (⟨c.align.slot, 0⟩, c.align.advance slots)

end SlotCursor

/-- A byte of encoded input. -/
structure HeadCursor where
  offset : Nat
deriving DecidableEq, Repr

/-- The offset of the next head of `size` bytes, and the cursor after it. -/
def HeadCursor.take (c : HeadCursor) (size : Nat) : Nat × HeadCursor :=
  (c.offset, ⟨Size.add c.offset size⟩)

end Solscope
