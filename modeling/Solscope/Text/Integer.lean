import Solscope.Size

/-!
# Decimal integers

An optional sign, then ASCII digits, at least one, and nothing else.

* `Text.readSize`: sizes, with a plus sign at most.
* `Text.readInt`: signed numbers of 64 bits.
-/

namespace Solscope.Text

/-- Why a text is no integer of the wanted range. -/
inductive IntegerError where
  /-- There is nothing to read. -/
  | empty
  /-- Something other than a digit, or a lone sign. -/
  | invalidDigit
  /-- The digits exceed the range. -/
  | tooLarge
deriving DecidableEq, Repr

/-- The wording of an error. -/
def IntegerError.message : IntegerError → String
  | .empty => "cannot parse integer from empty string"
  | .invalidDigit => "invalid digit found in string"
  | .tooLarge => "number too large to fit in target type"

/-- The value of an ASCII digit. -/
def digit? (c : Char) : Option Nat :=
  if '0' ≤ c ∧ c ≤ '9' then some (c.toNat - 48) else none

/--
The number spelled by digits that follow those of `acc`. The first fault from the left decides
the error.
-/
def readDigits (largest : Nat) : List Char → Nat → Except IntegerError Nat
  | [], acc => .ok acc
  | c :: cs, acc =>
    match digit? c with
    | none => .error .invalidDigit
    | some d =>
      if largest < 10 * acc + d then .error .tooLarge else readDigits largest cs (10 * acc + d)

/-- Digits, at least one. -/
def readDigits1 (largest : Nat) (cs : List Char) : Except IntegerError Nat :=
  if cs.isEmpty then .error .invalidDigit else readDigits largest cs 0

/-- A number up to `largest`, with an optional plus sign. -/
def readNat (largest : Nat) : List Char → Except IntegerError Nat
  | [] => .error .empty
  | '+' :: cs => readDigits1 largest cs
  | cs => readDigits largest cs 0

/-- A size, with an optional plus sign. -/
def readSize (cs : List Char) : Except IntegerError Nat := readNat Size.largest cs

/-- The greatest signed number of 64 bits. -/
def largestInt : Nat := 0x7FFFFFFFFFFFFFFF

/-- A signed number of 64 bits, with an optional sign. -/
def readInt : List Char → Except IntegerError Int
  | '-' :: cs => (readDigits1 (largestInt + 1) cs).map fun n => -n
  | cs => (readNat largestInt cs).map Int.ofNat

end Solscope.Text
