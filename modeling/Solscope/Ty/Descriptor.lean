import Solscope.Text.Blank
import Solscope.Text.Cut
import Solscope.Text.Integer
import Solscope.Ty.Basic

/-!
# Type descriptors

The compiler names types by descriptors such as `struct A.S storage ref[] storage pointer`.
`normalize` drops the words about data locations; the other functions take a normalized descriptor
apart.
-/

namespace Solscope.Descriptor

/-- The words about data locations. -/
def locationWords : List (List Char) :=
  [['s', 't', 'o', 'r', 'a', 'g', 'e'], ['m', 'e', 'm', 'o', 'r', 'y'],
   ['c', 'a', 'l', 'l', 'd', 'a', 't', 'a'], ['r', 'e', 'f'],
   ['p', 'o', 'i', 'n', 't', 'e', 'r'], ['s', 'l', 'i', 'c', 'e']]

/-- Whether a text goes on with an opening square or a closing round bracket. -/
def startsWithBracket : List Char → Bool
  | '[' :: _ | ')' :: _ => true
  | _ => false

/-- The rest of a word in which a bracket follows a location word without a blank between. -/
def glued? (word : List Char) : Option (List Char) :=
  locationWords.findSome? fun location => (Text.after? location word).filter startsWithBracket

/-- Adds a word to a descriptor. -/
def addWord (out word : List Char) : List Char :=
  if word ∈ locationWords then out
  else match glued? word with
    | some rest => out ++ rest
    | none => if out.isEmpty then word else out ++ ' ' :: word

/-- A descriptor without location words, with single blanks between the other words. -/
def normalize (descriptor : List Char) : List Char := (Text.words descriptor).foldl addWord []

/-- The two sides of the first arrow outside of any brackets, which `open` enclose the text. -/
def cutArrow? (nesting : Nat) : List Char → Option (List Char × List Char)
  | [] => none
  | c :: cs =>
    let nesting := if c = '(' then nesting + 1 else if c = ')' then nesting - 1 else nesting
    match nesting, c, cs with
    | 0, '=', '>' :: rest => some ([], rest)
    | _, _, _ => (cutArrow? nesting cs).map fun (left, right) => (c :: left, right)

/-- The descriptors of key and value of a mapping. -/
def mapping? (descriptor : List Char) : Option (List Char × List Char) := do
  let inner ← Text.before? [')'] (← Text.after? ['m', 'a', 'p', 'p', 'i', 'n', 'g', '('] descriptor)
  let (key, value) ← cutArrow? 0 inner
  return (Text.trim key, Text.trim value)

/-- The descriptor of the elements of an array, and what stands between its brackets. -/
def array? (descriptor : List Char) : Option (List Char × List Char) := do
  let (element, size) ← Text.cutLast? '[' (← Text.before? [']'] descriptor)
  return (element, Text.trim size)

/-- The bytes of an integer of so many bits: a multiple of 8 from 8 to 256. -/
def integerBytes? (bits : List Char) : Option Nat := do
  let bits ← (Text.readSize bits).toOption
  if bits % 8 = 0 ∧ 8 ≤ bits ∧ bits ≤ 256 then some (bits / 8) else none

/-- The length of a byte string of fixed length, from 1 to 32. -/
def fixedLength? (digits : List Char) : Option Nat := do
  let length ← (Text.readSize digits).toOption
  if 1 ≤ length ∧ length ≤ 32 then some length else none

/-- The type of a built-in name. -/
def elementary? (descriptor : List Char) : Option Ty :=
  match String.ofList descriptor with
  | "bool" => some .bool
  | "address" | "address payable" => some .address
  | "string" => some .string
  | "bytes" => some .bytes
  | "byte" => some (.fixedBytes 1)
  | "uint" => some (.uint 32)
  | "int" => some (.int 32)
  | _ =>
    match Text.after? ['u', 'i', 'n', 't'] descriptor with
    | some bits => (integerBytes? bits).map .uint
    | none => match Text.after? ['i', 'n', 't'] descriptor with
      | some bits => (integerBytes? bits).map .int
      | none => match Text.after? ['b', 'y', 't', 'e', 's'] descriptor with
        | some digits => (fixedLength? digits).map .fixedBytes
        | none => none

/-- The name of a struct. -/
def struct? (descriptor : List Char) : Option String :=
  (Text.after? ['s', 't', 'r', 'u', 'c', 't', ' '] descriptor).map String.ofList

/-- The name of an enumeration. -/
def enum? (descriptor : List Char) : Option String :=
  (Text.after? ['e', 'n', 'u', 'm', ' '] descriptor).map String.ofList

/-- The name of a contract or library. -/
def contract? (descriptor : List Char) : Option String :=
  ((Text.after? ['c', 'o', 'n', 't', 'r', 'a', 'c', 't', ' '] descriptor).or
    (Text.after? ['l', 'i', 'b', 'r', 'a', 'r', 'y', ' '] descriptor)).map String.ofList

end Solscope.Descriptor
