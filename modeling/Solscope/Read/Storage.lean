import Solscope.Layout.Extent
import Solscope.Preimages
import Solscope.Read.Error
import Solscope.Read.Word
import Solscope.Text.Utf8

/-!
# Reading storage

Slots that were never written read as zero, so data that is not there has the zero value of its
type. Mappings are read through the recorded hash inputs.
-/

namespace Solscope

/-- The storage of every account; a slot that cannot be read has a reason. -/
abbrev Storage := Address → Word → Except String Word

/-- What reading the storage of one account needs. -/
structure StorageView where
  storage : Storage
  address : Address
  preimages : Preimages
  limits : Limits

namespace StorageView

/-- The word in a slot of the account. -/
def word (view : StorageView) (slot : Word) : Except ReadError Word :=
  match view.storage view.address slot with
  | .ok w => .ok w
  | .error reason => .error (.storage ⟨view.address, slot, reason⟩)

/-- Where the elements of a dynamic array or the bytes of a long byte string start. -/
def dataSlot (slot : Word) : Word := keccakWord slot.toBytes

/-- The bytes of `count` slots in a row. -/
def words (view : StorageView) (slot : Word) : (count : Nat) → Except ReadError Bytes
  | 0 => .ok []
  | count + 1 => do
    let w ← view.word slot
    return w.toBytes ++ (← view.words (slot + 1) count)

/--
The byte string at a slot. Up to 31 bytes stand in the slot itself, with twice their number in its
lowest byte. More stand from the data slot on, and the slot holds twice their number plus one.
-/
def byteString (view : StorageView) (slot : Word) : Except ReadError Bytes := do
  let header ← view.word slot
  if header.toNat % 2 = 0 then
    let length := min (header.toNat % 256 / 2) 31
    return header.toBytes.take (min length view.limits.bytes)
  else
    let length ← view.limits.byteCount (Size.clamp (header.toNat / 2))
    return (← view.words (dataSlot slot) (Size.ceilDiv length 32)).take length

/--
The items of an array in a row, as many as the limits allow. Room is made for all of them first.
-/
def items {σ α : Type} (view : StorageView) (read : σ → Except ReadError (α × σ)) (length : Nat)
    (s : σ) : Except ReadError (List α) := do
  let count ← view.limits.itemCount length
  let (items, _) ← readRepeated read count s
  return items

/--
The entries of a mapping, added to those of `entries`. A hash input whose key cannot be one of the
mapping's is passed over, and nothing is added once there are as many entries as the limit allows.
-/
def entriesFrom (limit : Nat) (label? : Preimage → Option String)
    (value : Word → Except ReadError Value) (entries : List (String × Value)) :
    Preimages → Except ReadError (List (String × Value))
  | [] => .ok entries
  | p :: rest =>
    if limit ≤ entries.length then .ok entries
    else match label? p with
      | none => entriesFrom limit label? value entries rest
      | some label => do
        let v ← value p.hash
        entriesFrom limit label? value (Ordered.insert label v entries) rest

end StorageView

namespace Declared

/--
The text of a mapping's key, if `data` can be one: byte strings are as they are, values fill a word.
-/
def keyText? (types : Declared) (key : Ty) (data : Bytes) : Option String :=
  match key with
  | .bytes => some data.hex
  | .string => some (Text.ofUtf8 data)
  | _ =>
    if key.isValue ∧ data.length = 32 then some (types.ofWord key (Word.ofBytes data)).text
    else none

/-- The key that a hash input has for the mapping at `slot`. -/
def label? (types : Declared) (key : Ty) (slot : Word) (p : Preimage) : Option String :=
  (p.key? slot).bind (types.keyText? key)

mutual

/-- The value of a type at a cursor and the cursor after it, given how references are read. -/
def readStorageWith (types : Declared) (view : StorageView)
    (ofRef : StructRef → SlotCursor → Except ReadError (Value × SlotCursor)) (c : SlotCursor) :
    Ty → Except ReadError (Value × SlotCursor)
  | .structRef r => ofRef r c
  | .bytes => do
    let (start, next) := c.claimSlots (types.slots .bytes)
    return (.bytes (← view.byteString start.slot), next)
  | .string => do
    let (start, next) := c.claimSlots (types.slots .string)
    return (.string (Text.ofUtf8 (← view.byteString start.slot)), next)
  | .struct name fields => do
    let (start, next) := c.claimSlots (types.slots (.struct name fields))
    let (values, _) ← readStorageFields types view ofRef start fields
    return (.struct values, next)
  | .staticArray element length => do
    let (start, next) := c.claimSlots (types.slots (.staticArray element length))
    let items ← view.items (fun c => readStorageWith types view ofRef c element) length start
    return (.array items, next)
  | .dynamicArray element => do
    let (start, next) := c.claimSlots (types.slots (.dynamicArray element))
    let length := Size.clamp (← view.word start.slot).toNat
    let items ← view.items (fun c => readStorageWith types view ofRef c element) length
      ⟨StorageView.dataSlot start.slot, 0⟩
    return (.array items, next)
  | .mapping key value => do
    let (start, next) := c.claimSlots (types.slots (.mapping key value))
    let entries ← StorageView.entriesFrom view.limits.mapping (types.label? key start.slot)
      (fun slot => (readStorageWith types view ofRef ⟨slot, 0⟩ value).map Prod.fst) []
      (view.preimages.withSuffix start.slot)
    return (.mapping entries, next)
  | t => do
    let (start, next) := c.claim t.storageBytes
    let w ← view.word start.slot
    return (types.ofBits t (w.field start.offset t.storageBytes), next)

/-- The values of the members of a struct from a cursor on, and the cursor after them. -/
def readStorageFields (types : Declared) (view : StorageView)
    (ofRef : StructRef → SlotCursor → Except ReadError (Value × SlotCursor)) (c : SlotCursor) :
    List (String × Ty) → Except ReadError (List (String × Value) × SlotCursor)
  | [] => .ok ([], c)
  | (name, t) :: rest => do
    let (v, c) ← readStorageWith types view ofRef c t
    let (values, c) ← readStorageFields types view ofRef c rest
    return ((name, v) :: values, c)

end

/-- The value of a type at a cursor and the cursor after it. -/
def readStorage (types : Declared) (view : StorageView) (t : Ty) (c : SlotCursor) :
    Except ReadError (Value × SlotCursor) :=
  types.unfold (fun r _ => .error (.unresolved r.name))
    (fun ofRef t c => readStorageWith types view ofRef c t) t c

end Declared

end Solscope
