import Solscope.Program.Basic

/-!
# Which modifiers are invoked

An invocation means the modifier of its name in the most derived contract that has one. The
variables of the modifiers lie on the stack after those of the function, in the order of the
invocations.

* `Method.bindInvocations`: finds the modifiers of a method and places their variables.
-/

namespace Solscope

namespace Invocation

/-- The modifier of a name in the first of some contracts that has one. -/
def modifier? (contracts : List Contract) (linearized : List ContractId) (name : String) :
    Option MethodId :=
  linearized.findSome? fun id =>
    (contracts[id]?.bind fun c => c.modifierIndex? name).map fun index => ⟨id, index⟩

/-- The stack slots of a modifier's own variables; a modifier that is not found has none. -/
def slots (contracts : List Contract) (modifier : Option MethodId) : Nat :=
  let method := modifier.bind fun id => contracts[id.contract]?.bind fun c => c.methods[id.index]?
  (method.map (·.ownSlots)).getD 0

/-- Finds the modifiers of invocations, the variables of the first one starting at slot `offset`. -/
def bind (contracts : List Contract) (linearized : List ContractId) (offset : Nat) :
    List Invocation → List Invocation
  | [] => []
  | i :: rest =>
    let method := modifier? contracts linearized i.name
    { i with method, stackOffset := offset } ::
      bind contracts linearized (offset + slots contracts method) rest

/-- The stack slots of the variables of all invoked modifiers. -/
def totalSlots (contracts : List Contract) : List Invocation → Nat
  | [] => 0
  | i :: rest => slots contracts i.method + totalSlots contracts rest

end Invocation

/-- Finds the modifiers of a method and counts the slots of their variables. -/
def Method.bindInvocations (contracts : List Contract) (linearized : List ContractId) (m : Method) :
    Method :=
  let invocations := Invocation.bind contracts linearized m.ownSlots m.invocations
  { m with invocations, totalSlots := m.ownSlots + Invocation.totalSlots contracts invocations }

/-- Finds the modifiers of all methods of a contract. -/
def Contract.bindInvocations (contracts : List Contract) (c : Contract) : Contract :=
  { c with methods := c.methods.map (Method.bindInvocations contracts c.linearized) }

end Solscope
