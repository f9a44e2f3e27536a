import Solscope.Opcode
import Solscope.Source.File
import Solscope.Text.Integer

/-!
# Source maps

A source map is a `;`-separated list with one `start:length:file:jump` entry per instruction.
A field that is empty or missing repeats the field of the entry before; further fields carry no
meaning here.

* `Entry.read`: one entry, given the one before.
* `SourceMap.decode`: the mappings of all entries, each at the offset of its instruction.
-/

namespace Solscope

/-- How an instruction moves between functions. -/
inductive Jump where
  /-- Into a function. -/
  | into
  /-- Out of a function. -/
  | out
  /-- Neither. -/
  | regular
deriving DecidableEq, Repr

/-- The letter of a jump in a source map. -/
def Jump.letter : Jump → Char
  | .into => 'i'
  | .out => 'o'
  | .regular => '-'

/-- The source position of an instruction. -/
structure Mapping where
  /-- The offset of the instruction. -/
  pc : Nat
  /-- Its place in the sources, unless the compiler made it up. -/
  span : Option Span
  jump : Jump
deriving DecidableEq, Repr

/-- The mappings of a piece of code in the order of its instructions. -/
abbrev SourceMap := List Mapping

/-- Why a text is no source map. -/
inductive SourceMapError where
  /-- A field of entry `entry` is no signed 64-bit number. -/
  | invalidField (entry : Nat) (field : String)
  /-- The fourth field of entry `entry` is no jump letter. -/
  | invalidJump (entry : Nat) (field : String)
deriving DecidableEq, Repr

/-- The wording of an error. -/
def SourceMapError.message : SourceMapError → String
  | .invalidField entry field => s!"invalid field `{field}` in source map entry {entry}"
  | .invalidJump entry field => s!"invalid jump type `{field}` in source map entry {entry}"

namespace SourceMap

/-- The fields of one entry, inherited ones included. -/
structure Entry where
  start : Int := -1
  length : Int := -1
  file : Int := -1
  jump : Jump := .regular
deriving DecidableEq, Repr

/-- A numeric field of entry `index`, or what it repeats. -/
def readNumber (index : Nat) (repeated : Int) : Option (List Char) → Except SourceMapError Int
  | none | some [] => .ok repeated
  | some field =>
    match Text.readInt field with
    | .ok n => .ok n
    | .error _ => .error (.invalidField index (String.ofList field))

/-- The jump field of entry `index`, or what it repeats. -/
def readJump (index : Nat) (repeated : Jump) : Option (List Char) → Except SourceMapError Jump
  | none | some [] => .ok repeated
  | some ['i'] => .ok .into
  | some ['o'] => .ok .out
  | some ['-'] => .ok .regular
  | some field => .error (.invalidJump index (String.ofList field))

/-- The entry `text`, number `index` of its map, after the entry `previous`. -/
def Entry.read (index : Nat) (previous : Entry) (text : List Char) :
    Except SourceMapError Entry := do
  let fields := text.splitOn ':'
  return {
    start := ← readNumber index previous.start fields[0]?
    length := ← readNumber index previous.length fields[1]?
    file := ← readNumber index previous.file fields[2]?
    jump := ← readJump index previous.jump fields[3]? }

/-- The place an entry stands for: none if a number is negative or the file is not known. -/
def Entry.span? (e : Entry) (sources : Sources) : Option Span :=
  if 0 ≤ e.start ∧ 0 ≤ e.length ∧ 0 ≤ e.file then
    sources.span? ⟨e.file.toNat, e.start.toNat, e.length.toNat⟩
  else none

/--
The mappings of the entries from number `index` on. `code` is the code from offset `pc` on; past
its end every entry takes one byte.
-/
def decodeFrom (sources : Sources) (index pc : Nat) (code : Bytes) (previous : Entry) :
    List (List Char) → Except SourceMapError SourceMap
  | [] => .ok []
  | text :: rest => do
    let entry ← Entry.read index previous text
    let stride := match code with
      | [] => 1
      | op :: _ => Opcode.stride op
    let mappings ← decodeFrom sources (index + 1) (pc + stride) (code.drop stride) entry rest
    return ⟨pc, entry.span? sources, entry.jump⟩ :: mappings

/-- Decodes the map of `code`. -/
def decode (text : String) (code : Bytes) (sources : Sources) : Except SourceMapError SourceMap :=
  if text.isEmpty then .ok []
  else decodeFrom sources 0 0 code {} (text.toList.splitOn ';')

/-- The mapping of the instruction at `pc`. -/
def get? (map : SourceMap) (pc : Nat) : Option Mapping := map.find? fun m => m.pc = pc

end SourceMap

end Solscope
