import Solscope.Bytes

/-!
# UTF-8

Texts as bytes, and arbitrary bytes as text.

Bytes that are not UTF-8 are read as replacement characters, one for every longest piece that a
character could begin with.
-/

namespace Solscope.Text

/-- The UTF-8 bytes of characters. -/
def encode (cs : List Char) : Bytes := cs.flatMap String.utf8EncodeChar

/-- The UTF-8 bytes of a text. -/
def utf8 (text : String) : Bytes := encode text.toList

/-- A character of several bytes that has been begun. -/
structure Begun where
  /-- The bits read so far. -/
  bits : Nat
  /-- Bytes still to come. -/
  missing : Nat
  /-- The least next byte. -/
  low : Nat := 0x80
  /-- The greatest next byte. -/
  high : Nat := 0xBF

/-- What stands for bytes that spell no character. -/
def replacement : Char := Char.ofNat 0xFFFD

/-- The character begun by a first byte above ASCII, if there is one. -/
def begun? (b : Nat) : Option Begun :=
  if b < 0xC2 then none
  else if b < 0xE0 then some { bits := b % 32, missing := 1 }
  else if b = 0xE0 then some { bits := 0, missing := 2, low := 0xA0 }
  else if b = 0xED then some { bits := 13, missing := 2, high := 0x9F }
  else if b < 0xF0 then some { bits := b % 16, missing := 2 }
  else if b = 0xF0 then some { bits := 0, missing := 3, low := 0x90 }
  else if b < 0xF4 then some { bits := b % 8, missing := 3 }
  else if b = 0xF4 then some { bits := 4, missing := 3, high := 0x8F }
  else none

/-- What a byte between characters yields, and the character it begins. -/
def first (b : Nat) : List Char × Option Begun :=
  if b < 0x80 then ([Char.ofNat b], none)
  else match begun? b with
    | some p => ([], some p)
    | none => ([replacement], none)

/-- What a byte yields inside a begun character, and the character then begun. -/
def next (p : Begun) (b : Nat) : List Char × Option Begun :=
  if p.low ≤ b ∧ b ≤ p.high then
    let bits := p.bits * 64 + b % 64
    if p.missing ≤ 1 then ([Char.ofNat bits], none)
    else ([], some { bits, missing := p.missing - 1 })
  else
    let (out, begun) := first b
    (replacement :: out, begun)

/-- Reads bytes as characters, from inside `state`. -/
def decodeFrom : Option Begun → Bytes → List Char
  | none, [] => []
  | some _, [] => [replacement]
  | state, b :: rest =>
    let (out, state) := match state with
      | none => first b.toNat
      | some p => next p b.toNat
    out ++ decodeFrom state rest

/-- Reads bytes as text. -/
def ofUtf8 (data : Bytes) : String := String.ofList (decodeFrom none data)

end Solscope.Text
