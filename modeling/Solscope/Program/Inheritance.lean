import Solscope.Program.Basic

/-!
# Inheritance

The bases of a contract are found by name, and its linearization by the node numbers that the
compiler lists. Where these do not start with the contract itself, its bases are walked instead.

* `Contract.findParents`: the direct bases.
* `Inheritance.walk`: a contract and everything it derives from, each once.
-/

namespace Solscope

namespace Inheritance

/--
A contract and its bases, depth first, the last named base first. `path` holds the contracts on the
way here, which are not entered again; `fuel` bounds its length.
-/
def walkFrom (parents : ContractId → List ContractId) :
    (fuel : Nat) → (path : List ContractId) → ContractId → List ContractId
  | 0, _, _ => []
  | fuel + 1, path, id =>
    if id ∈ path then []
    else (parents id).reverse.foldl
      (fun order parent => Distinct.append order (walkFrom parents fuel (id :: path) parent)) [id]

/-- The direct bases of a contract. -/
def parentsIn (contracts : List Contract) (id : ContractId) : List ContractId :=
  (contracts[id]?.map (·.parents)).getD []

/-- A contract and everything it derives from. -/
def walk (contracts : List Contract) (id : ContractId) : List ContractId :=
  walkFrom (parentsIn contracts) (contracts.length + 1) [] id

end Inheritance

namespace Contract

/--
Finds the direct bases of a contract among all contracts; of equal names the first one counts.
-/
def findParents (contracts : List Contract) (c : Contract) : Contract :=
  { c with
    parents := c.parentNames.filterMap fun name => contracts.findIdx? fun p => p.name = name }

/-- The last contract that a node number belongs to. -/
def ofNodeId? (contracts : List Contract) (nodeId : Nat) : Option ContractId :=
  ((contracts.zipIdx.reverse.find? fun (c, _) => c.nodeId = some nodeId)).map Prod.snd

/-- Finds the linearization of the contract of number `id`. -/
def linearize (contracts : List Contract) (c : Contract) (id : ContractId) : Contract :=
  let listed := c.linearizedIds.filterMap (ofNodeId? contracts)
  let linearized := if listed.head? = some id then listed else Inheritance.walk contracts id
  { c with linearized }

end Contract

namespace Inheritance

/-- Finds direct bases and linearizations of all contracts. -/
def resolve (contracts : List Contract) : List Contract :=
  let contracts := contracts.map (Contract.findParents contracts)
  contracts.zipIdx.map fun (c, id) => c.linearize contracts id

end Inheritance

end Solscope
