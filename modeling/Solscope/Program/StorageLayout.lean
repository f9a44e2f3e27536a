import Solscope.Layout.Extent
import Solscope.Program.Basic

/-!
# Where state variables are stored

The variables of the most basic contract come first. A variable whose type is not known takes a slot
of its own.

* `StorageLayout.place`: places variables one after the other.
* `Contract.layOut`: places all variables of a contract and its bases.
-/

namespace Solscope

namespace StorageLayout

/-- Where a variable starts, and the cursor after it. -/
def claim (types : Declared) (c : SlotCursor) (ty : Option Ty) : SlotCursor × SlotCursor :=
  match ty with
  | some t => types.reserve c t
  | none => c.claimSlots 1

/-- Places variables one after the other from a cursor on. -/
def place (types : Declared) (c : SlotCursor) : List Variable → List Variable
  | [] => []
  | v :: rest =>
    let (start, next) := claim types c v.ty
    { v with storage := some start } :: place types next rest

end StorageLayout

/-- Places the state variables of a contract and its bases, the most basic contract first. -/
def Contract.layOut (types : Declared) (contracts : List Contract) (c : Contract) : Contract :=
  let vars := c.linearized.reverse.flatMap fun id =>
    (contracts[id]?.map (·.stateVariables)).getD []
  { c with layout := StorageLayout.place types .origin vars }

end Solscope
