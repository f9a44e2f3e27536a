/-!
# Sizes

Sizes, offsets and counts of machine memory.

They are natural numbers below `2 ^ 64`. Most arithmetic on them stops at the largest size
(`clamp`, `add`, `mul`). Where it does not stop there, a sum that is no size has no value (`add?`).
-/

namespace Solscope.Size

/-- The largest size. -/
def largest : Nat := 0xFFFFFFFFFFFFFFFF

/-- The nearest size to `n`. -/
def clamp (n : Nat) : Nat := min n largest

/-- A sum that stops at the largest size. -/
def add (a b : Nat) : Nat := clamp (a + b)

/-- A product that stops at the largest size. -/
def mul (a b : Nat) : Nat := clamp (a * b)

/-- A sum, if it is a size. -/
def add? (a b : Nat) : Option Nat := if a + b ≤ largest then some (a + b) else none

/-- How many groups of `group` cover `n`, the last one possibly not full. -/
def ceilDiv (n group : Nat) : Nat := (n + group - 1) / group

theorem clamp_le (n : Nat) : clamp n ≤ largest := Nat.min_le_right ..

theorem clamp_of_le {n : Nat} (h : n ≤ largest) : clamp n = n := Nat.min_eq_left h

end Solscope.Size
