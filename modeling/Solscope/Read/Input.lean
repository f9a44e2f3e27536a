import Solscope.Layout.Extent
import Solscope.Read.Memory

/-!
# Reading encoded input

Values in the input of a call are encoded as tuples: the heads of all components come first, and a
dynamic component has its data further on, at an offset that its head counts from the start of the
tuple.

* `Declared.readInput`: the value whose head is at a cursor.
* `Declared.readInputAt`: the value of a variable that the stack refers to.
-/

namespace Solscope

namespace Input

/-- The word at an offset. -/
def word (input : Bytes) (offset : Nat) : Except ReadError Word :=
  (Memory.slice input offset 32).map Word.ofBytes

/-- The word at an offset as a size. -/
def size (input : Bytes) (offset : Nat) : Except ReadError Nat :=
  (word input offset).map fun w => Size.clamp w.toNat

end Input

namespace Declared

/-- Where a value's data starts, in a tuple that starts at `base`, and the cursor after its head. -/
def readHead (types : Declared) (input : Bytes) (base : Nat) (t : Ty) (c : HeadCursor) :
    Except ReadError (Nat × HeadCursor) :=
  if types.isDynamic t then do
    let (head, c) := c.take 32
    return (Size.add base (← Input.size input head), c)
  else
    match types.headSize? t with
    | some size => .ok (c.take size)
    | none => .error .overflow

mutual

/--
The value whose head is at a cursor, in a tuple that starts at `base`, and the cursor after the
head, given how references are read.
-/
def readInputWith (types : Declared) (input : Bytes) (limits : Limits)
    (ofRef : StructRef → Nat → HeadCursor → Except ReadError (Value × HeadCursor))
    (base : Nat) (c : HeadCursor) : Ty → Except ReadError (Value × HeadCursor)
  | .structRef r => ofRef r base c
  | .bytes => do
    let (start, c) ← types.readHead input base .bytes c
    let length := min (← Input.size input start) limits.bytes
    return (.bytes (← Memory.slice input (Size.add start 32) length), c)
  | .string => do
    let (start, c) ← types.readHead input base .string c
    let length := min (← Input.size input start) limits.bytes
    return (.string (Text.ofUtf8 (← Memory.slice input (Size.add start 32) length)), c)
  | .dynamicArray element => do
    let (start, c) ← types.readHead input base (.dynamicArray element) c
    let length := min (← Input.size input start) limits.array
    let start := Size.add start 32
    let (items, _) ← readRepeated
      (fun c => readInputWith types input limits ofRef start c element) length ⟨start⟩
    return (.array items, c)
  | .staticArray element length => do
    let (start, c) ← types.readHead input base (.staticArray element length) c
    let (items, _) ← readRepeated
      (fun c => readInputWith types input limits ofRef start c element)
      (min length limits.array) ⟨start⟩
    return (.array items, c)
  | .struct name fields => do
    let (start, c) ← types.readHead input base (.struct name fields) c
    let (values, _) ← readInputFields types input limits ofRef start ⟨start⟩ fields
    return (.struct values, c)
  | .mapping key value => .error (.unsupported (Ty.mapping key value).text .calldata)
  | t => do
    let (start, c) ← types.readHead input base t c
    return (types.ofWord t (← Input.word input start), c)

/-- The components of a tuple that starts at `base`, from a cursor on. -/
def readInputFields (types : Declared) (input : Bytes) (limits : Limits)
    (ofRef : StructRef → Nat → HeadCursor → Except ReadError (Value × HeadCursor))
    (base : Nat) (c : HeadCursor) :
    List (String × Ty) → Except ReadError (List (String × Value) × HeadCursor)
  | [] => .ok ([], c)
  | (name, t) :: rest => do
    let (v, c) ← readInputWith types input limits ofRef base c t
    let (values, c) ← readInputFields types input limits ofRef base c rest
    return ((name, v) :: values, c)

end

/--
The value whose head is at a cursor, in a tuple that starts at `base`, and the cursor after it.
-/
def readInput (types : Declared) (input : Bytes) (limits : Limits) (t : Ty) (base : Nat)
    (c : HeadCursor) : Except ReadError (Value × HeadCursor) :=
  types.unfold (fun r _ _ => .error (.unresolved r.name))
    (fun ofRef t base c => readInputWith types input limits ofRef base c t) t base c

/-- The struct a reference stands for, its head at a cursor. -/
def readInputRef (types : Declared) (input : Bytes) (limits : Limits) (r : StructRef) (base : Nat)
    (c : HeadCursor) : Except ReadError (Value × HeadCursor) :=
  match types.follow? r with
  | some t => types.readInput input limits t base c
  | none => .error (.unresolved r.name)

/-- Up to `count` values of a type in a row, the elements of a tuple that starts at `base`. -/
def readElements (types : Declared) (input : Bytes) (limits : Limits) (element : Ty)
    (base count : Nat) : Except ReadError Value :=
  (readRepeated (types.readInput input limits element base) (min count limits.array) ⟨base⟩).map
    fun (items, _) => .array items

/-- The members of a struct, the components of a tuple that starts at `base`. -/
def readTuple (types : Declared) (input : Bytes) (limits : Limits) (fields : List (String × Ty))
    (base : Nat) : Except ReadError Value :=
  (readInputFields types input limits (types.readInputRef input limits) base ⟨base⟩ fields).map
    fun (values, _) => .struct values

/-- The value of a variable whose data starts at `offset`, given how references are read. -/
def readInputAtWith (types : Declared) (input : Bytes) (limits : Limits)
    (ofRef : StructRef → Nat → Option Nat → Except ReadError Value) (t : Ty) (offset : Nat)
    (length : Option Nat) : Except ReadError Value :=
  match t, length with
  | .structRef r, length => ofRef r offset length
  | .bytes, some length => (Memory.slice input offset (min length limits.bytes)).map .bytes
  | .string, some length =>
    (Memory.slice input offset (min length limits.bytes)).map fun data => .string (Text.ofUtf8 data)
  | .dynamicArray element, some length => types.readElements input limits element offset length
  | .bytes, none | .string, none | .dynamicArray _, none =>
    (types.readInput input limits t 0 ⟨offset⟩).map Prod.fst
  | .staticArray element count, _ => types.readElements input limits element offset count
  | .struct _ fields, _ => types.readTuple input limits fields offset
  | .mapping .., _ => .error (.unsupported t.text .calldata)
  | _, _ => (Input.word input offset).map (types.ofWord t)

/--
The value of a variable whose data starts at `offset`. `length` counts the bytes or elements of
dynamic data; without it `offset` is that of a head.
-/
def readInputAt (types : Declared) (input : Bytes) (limits : Limits) (t : Ty) (offset : Nat)
    (length : Option Nat) : Except ReadError Value :=
  types.unfold (fun r _ _ => .error (.unresolved r.name)) (readInputAtWith types input limits) t
    offset length

end Declared

end Solscope
