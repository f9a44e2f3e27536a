import Solscope.Text.Blank
import Solscope.Text.Cut
import Solscope.Text.Quoted
import Solscope.Text.Utf8

/-!
# Compiled code with placeholders

Compiled code is hexadecimal text in which addresses of libraries may still be missing. Each missing
address is a placeholder of 40 characters that starts with `__`.

* `Hex.decode`: hexadecimal digits as bytes.
* `Bytecode.parse`: code with its placeholders, whose bytes are zero.
* `Bytecode.accepts`: whether deployed code is this code, whatever its placeholders hold.
-/

namespace Solscope

namespace Hex

/-- Why bytes are no hexadecimal text. -/
inductive Error where
  /-- The number of digits is odd. -/
  | oddLength
  /-- The byte at `position` is no digit. -/
  | invalidCharacter (byte : UInt8) (position : Nat)
deriving DecidableEq, Repr

/-- The wording of an error. -/
def Error.message : Error → String
  | .oddLength => "odd number of digits"
  | .invalidCharacter byte position =>
    s!"invalid character {Text.quotedChar (Char.ofNat byte.toNat)} at position {position}"

/-- The value of a hexadecimal digit of either case. -/
def value? (b : UInt8) : Option Nat :=
  let n := b.toNat
  if 48 ≤ n ∧ n ≤ 57 then some (n - 48)
  else if 97 ≤ n ∧ n ≤ 102 then some (n - 87)
  else if 65 ≤ n ∧ n ≤ 70 then some (n - 55)
  else none

/-- Decodes pairs of digits, the first of them at `position`. -/
def decodePairs (position : Nat) : Bytes → Except Error Bytes
  | high :: low :: rest =>
    match value? high, value? low with
    | none, _ => .error (.invalidCharacter high position)
    | _, none => .error (.invalidCharacter low (position + 1))
    | some h, some l => (decodePairs (position + 2) rest).map (UInt8.ofNat (16 * h + l) :: ·)
  | _ => .ok []

/-- The text after `0x` or `0X`. -/
def withoutIntroducer : Bytes → Bytes
  | 48 :: 120 :: rest => rest
  | 48 :: 88 :: rest => rest
  | text => text

/-- The bytes that hexadecimal text spells, with or without `0x` in front. -/
def decode (text : Bytes) : Except Error Bytes :=
  if text.length % 2 = 1 then .error .oddLength else decodePairs 0 (withoutIntroducer text)

end Hex

/-- A range of byte offsets, the last one excluded. -/
structure ByteRange where
  start : Nat
  stop : Nat
deriving DecidableEq, Repr

/-- Whether an offset lies in a range. -/
def ByteRange.contains (r : ByteRange) (offset : Nat) : Bool := r.start ≤ offset ∧ offset < r.stop

/-- Code of which some bytes are only known once it is linked or deployed. -/
structure Bytecode where
  /-- The code, with zeros for the unknown bytes of its placeholders. -/
  bytes : Bytes := []
  /-- Where the bytes are unknown. -/
  placeholders : List ByteRange := []
deriving DecidableEq, Repr

namespace Bytecode

/-- Why a text is no code. -/
inductive Error where
  /-- A placeholder starts between the two digits of a byte. -/
  | misaligned (position : Nat)
  /-- The text between two placeholders is not hexadecimal. -/
  | hex (reason : Hex.Error)
  /-- The 40 bytes of a placeholder end inside a character: there is no way to go on. -/
  | splitsCharacter
deriving DecidableEq, Repr

/-- The wording of an error, which a split character has none of. -/
def Error.message? : Error → Option String
  | .misaligned position => some s!"misaligned placeholder at {position}"
  | .hex reason => some reason.message
  | .splitsCharacter => none

/-- The bytes of a placeholder in the text. -/
def placeholderLength : Nat := 40

/-- The text before the first two underscores in a row, and the text from them on. -/
def cutPlaceholder : Bytes → Bytes × Bytes
  | 95 :: 95 :: rest => ([], 95 :: 95 :: rest)
  | b :: rest => (b :: (cutPlaceholder rest).1, (cutPlaceholder rest).2)
  | [] => ([], [])

/-- Whether a text starts inside a character of the text before it. -/
def startsInsideCharacter : Bytes → Bool
  | b :: _ => 0x80 ≤ b.toNat && b.toNat < 0xC0
  | [] => false

theorem cutPlaceholder_snd_length_le (text : Bytes) :
    (cutPlaceholder text).2.length ≤ text.length := by
  fun_induction cutPlaceholder text with
  | case1 rest => simp
  | case2 b rest h ih =>
    simp only [List.length_cons]
    omega
  | case3 => simp

/--
Reads the text from `position` on, after the code `read`. Every round takes the digits up to the
next placeholder and the placeholder itself.
-/
def parseFrom (read : Bytecode) (position : Nat) (text : Bytes) : Except Error Bytecode :=
  match _hcut : cutPlaceholder text with
  | (digits, []) =>
    match Hex.decode digits with
    | .error reason => .error (.hex reason)
    | .ok bytes => .ok { read with bytes := read.bytes ++ bytes }
  | (digits, first :: more) =>
    if digits.length % 2 = 1 then .error (.misaligned (position + digits.length))
    else match Hex.decode digits with
      | .error reason => .error (.hex reason)
      | .ok bytes =>
        let rest := (first :: more).drop placeholderLength
        if startsInsideCharacter rest then .error .splitsCharacter
        else
          let start := read.bytes.length + bytes.length
          let filled := min placeholderLength (first :: more).length / 2
          parseFrom
            { bytes := read.bytes ++ bytes ++ List.replicate filled 0
              placeholders := read.placeholders ++ [⟨start, start + filled⟩] }
            (position + digits.length + placeholderLength) rest
termination_by text.length
decreasing_by
  have := cutPlaceholder_snd_length_le text
  simp only [_hcut, List.length_cons] at this
  simp only [placeholderLength, List.length_drop, List.length_cons]
  omega

/-- Drops every `0x` at the start. -/
def dropIntroducers : List Char → List Char
  | '0' :: 'x' :: rest => dropIntroducers rest
  | cs => cs

/-- Reads compiled code, blanks around it and any `0x` in front aside. -/
def parse (text : String) : Except Error Bytecode :=
  parseFrom {} 0 (Text.encode (dropIntroducers (Text.trim text.toList)))

/-- Declares a further range of bytes unknown. -/
def mask (code : Bytecode) (range : ByteRange) : Bytecode :=
  { code with placeholders := code.placeholders ++ [range] }

/-- Whether the byte at `offset` is unknown. -/
def isUnknown (code : Bytecode) (offset : Nat) : Bool :=
  code.placeholders.any fun r => r.contains offset

/-- Whether `actual` starts with `expected`, which starts at `offset`, unknown bytes aside. -/
def agreesFrom (code : Bytecode) (offset : Nat) : (expected actual : Bytes) → Bool
  | [], _ => true
  | _ :: _, [] => false
  | e :: expected, a :: actual =>
    (a = e || code.isUnknown offset) && agreesFrom code (offset + 1) expected actual

/--
Whether `deployed` is this code, unknown bytes aside. What follows it must be zero, unless
`anySuffix` allows anything. Empty code is nobody's.
-/
def accepts (code : Bytecode) (deployed : Bytes) (anySuffix : Bool) : Bool :=
  !code.bytes.isEmpty && code.agreesFrom 0 code.bytes deployed &&
    (anySuffix || (deployed.drop code.bytes.length).all (· = 0))

end Bytecode

end Solscope
