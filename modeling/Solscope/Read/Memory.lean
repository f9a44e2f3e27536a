import Solscope.Read.Error
import Solscope.Read.Word
import Solscope.Text.Utf8

/-!
# Reading memory

A value type fills a word. Inside structs and arrays, everything else is a pointer to its own
encoding. Mappings are not kept in memory; a struct there has no members of such a type.
-/

namespace Solscope

namespace Memory

/-- The word at an offset; bytes past the end are zero. -/
def word (memory : Bytes) (offset : Nat) : Word := Word.ofBytes (memory.paddedSlice offset 32)

/-- The word at an offset as a size. -/
def size (memory : Bytes) (offset : Nat) : Nat := Size.clamp (word memory offset).toNat

/-- `length` bytes at an offset; all of them must be there. -/
def slice (data : Bytes) (offset length : Nat) : Except ReadError Bytes :=
  if offset + length ≤ data.length then .ok (data.slice offset length)
  else .error (.outOfBounds offset length)

end Memory

namespace Declared

/-- Reads `count` members in a row, each at the word after that of the one before. -/
def readWords {α : Type} (read : Nat → Except ReadError α) (start : Nat) :
    (index count : Nat) → Except ReadError (List α)
  | _, 0 => .ok []
  | index, count + 1 => do
    let a ← read (Size.add start (32 * index))
    return a :: (← readWords read start (index + 1) count)

/--
The member of a struct or array whose word is at `offset`: a value type is the word itself, for any
other type it points to what `read` reads.
-/
def readMember (types : Declared) (memory : Bytes) (t : Ty) (read : Nat → Except ReadError Value)
    (offset : Nat) : Except ReadError Value :=
  if t.isValue then .ok (types.ofWord t (Memory.word memory offset))
  else read (Memory.size memory offset)

mutual

/-- The value whose encoding starts at `pointer`, given how references are read. -/
def readMemoryWith (types : Declared) (memory : Bytes) (limits : Limits)
    (ofRef : StructRef → Nat → Except ReadError Value) (pointer : Nat) :
    Ty → Except ReadError Value
  | .structRef r => ofRef r pointer
  | .bytes => do
    let length := min (Memory.size memory pointer) limits.bytes
    return .bytes (← Memory.slice memory (Size.add pointer 32) length)
  | .string => do
    let length := min (Memory.size memory pointer) limits.bytes
    return .string (Text.ofUtf8 (← Memory.slice memory (Size.add pointer 32) length))
  | .struct _ fields => (readMemoryFields types memory limits ofRef pointer fields).map .struct
  | .staticArray element length =>
    (readWords
      (types.readMember memory element fun p => readMemoryWith types memory limits ofRef p element)
      pointer 0 (min length limits.array)).map .array
  | .dynamicArray element =>
    (readWords
      (types.readMember memory element fun p => readMemoryWith types memory limits ofRef p element)
      (Size.add pointer 32) 0 (min (Memory.size memory pointer) limits.array)).map .array
  | .mapping key value => .error (.unsupported (Ty.mapping key value).text .memory)
  | t => .ok (types.ofWord t (Memory.word memory pointer))

/-- The members of a struct, the first of them at `offset`; those of mapping types take no room. -/
def readMemoryFields (types : Declared) (memory : Bytes) (limits : Limits)
    (ofRef : StructRef → Nat → Except ReadError Value) (offset : Nat) :
    List (String × Ty) → Except ReadError (List (String × Value))
  | [] => .ok []
  | (name, t) :: rest =>
    if t.isMapping then readMemoryFields types memory limits ofRef offset rest
    else do
      let v ← types.readMember memory t
        (fun p => readMemoryWith types memory limits ofRef p t) offset
      return (name, v) :: (← readMemoryFields types memory limits ofRef (Size.add offset 32) rest)

end

/-- A value fills the word that a pointer leads to. -/
theorem readMemoryWith_of_isValue {types : Declared} {memory : Bytes} {limits : Limits}
    {ofRef : StructRef → Nat → Except ReadError Value} {t : Ty} (ht : t.isValue = true)
    (pointer : Nat) : readMemoryWith types memory limits ofRef pointer t =
      .ok (types.ofWord t (Memory.word memory pointer)) := by
  cases t with
  | bytes | string | struct | structRef | staticArray | dynamicArray | mapping => cases ht
  | _ => rfl

/-- The value whose encoding in memory starts at `pointer`. -/
def readMemory (types : Declared) (memory : Bytes) (limits : Limits) (t : Ty) (pointer : Nat) :
    Except ReadError Value :=
  types.unfold (fun r _ => .error (.unresolved r.name))
    (fun ofRef t pointer => readMemoryWith types memory limits ofRef pointer t) t pointer

end Declared

end Solscope
