import Solscope.Layout.Cursor
import Solscope.Ty.Declared

/-!
# How much room types take

* `Declared.slots`: the storage slots of a type.
* `Declared.isDynamic`: whether encoded input holds a type out of line.
* `Declared.headSize?`: the bytes of its head in encoded input.

All counts stop at the largest size, except that there is none of the heads of a struct's members if
they are no size together.
-/

namespace Solscope

namespace SlotCursor

/-- Where a variable starts, given its type and the slots of that type, and the cursor after it. -/
def reserveSlots (c : SlotCursor) (t : Ty) (slots : Nat) : SlotCursor × SlotCursor :=
  if t.isValue then c.claim t.storageBytes else c.claimSlots slots

end SlotCursor

namespace Ty

mutual

/-- The storage slots of a type from the start of a slot, given those of references. -/
def slotsWith (ofRef : StructRef → Nat) : Ty → Nat
  | struct _ fields => max (Size.clamp (endOfFields ofRef .origin fields).align.slot.toNat) 1
  | structRef r => ofRef r
  | staticArray element length =>
    if element.isValue then Size.ceilDiv length (32 / element.storageBytes)
    else Size.mul length (slotsWith ofRef element)
  | _ => 1

/-- The cursor after the members of a struct. -/
def endOfFields (ofRef : StructRef → Nat) (c : SlotCursor) : List (String × Ty) → SlotCursor
  | [] => c
  | (_, t) :: rest => endOfFields ofRef (c.reserveSlots t (slotsWith ofRef t)).2 rest

end

mutual

/-- Whether encoded input holds a type out of line, given which references it does. -/
def isDynamicWith (ofRef : StructRef → Bool) : Ty → Bool
  | bytes | string | dynamicArray _ => true
  | staticArray element _ => isDynamicWith ofRef element
  | struct _ fields => anyDynamicWith ofRef fields
  | structRef r => ofRef r
  | _ => false

/-- Whether encoded input holds one of the members out of line. -/
def anyDynamicWith (ofRef : StructRef → Bool) : List (String × Ty) → Bool
  | [] => false
  | (_, t) :: rest => isDynamicWith ofRef t || anyDynamicWith ofRef rest

end

end Ty

namespace Declared

/--
The storage slots of a type from the start of a slot. A reference that stands for nothing has one.
-/
def slots (types : Declared) (t : Ty) : Nat := types.unfold (fun _ => 1) Ty.slotsWith t

/-- Whether encoded input holds a type out of line. -/
def isDynamic (types : Declared) (t : Ty) : Bool := types.unfold (fun _ => false) Ty.isDynamicWith t

/-- Where a variable of type `t` starts, and the cursor after it. -/
def reserve (types : Declared) (c : SlotCursor) (t : Ty) : SlotCursor × SlotCursor :=
  c.reserveSlots t (types.slots t)

mutual

/-- The bytes of the head of a type if sizes count them, given those of references. -/
def headSizeWith? (types : Declared) (ofRef : StructRef → Option Nat) : Ty → Option Nat
  | .staticArray element length =>
    if types.isDynamic (.staticArray element length) then some 32
    else (headSizeWith? types ofRef element).map (Size.mul length)
  | .struct name fields =>
    if types.isDynamic (.struct name fields) then some 32 else headSizeOfFields? types ofRef fields
  | .structRef r => if types.isDynamic (.structRef r) then some 32 else ofRef r
  | _ => some 32

/-- The bytes of the heads of the members of a struct. -/
def headSizeOfFields? (types : Declared) (ofRef : StructRef → Option Nat) :
    List (String × Ty) → Option Nat
  | [] => some 0
  | (_, t) :: rest => do
    Size.add? (← headSizeWith? types ofRef t) (← headSizeOfFields? types ofRef rest)

end

/--
The bytes of the head of a type, a word where the data is out of line and all of it otherwise, if
sizes count the heads of the members of every struct in it.
-/
def headSize? (types : Declared) (t : Ty) : Option Nat :=
  types.unfold (fun _ => some 32) (headSizeWith? types) t

end Declared

end Solscope
