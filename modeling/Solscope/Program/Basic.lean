import Solscope.Distinct
import Solscope.Program.Method
import Solscope.Ty.Declared

/-!
# Programs

A program holds the contracts of a compilation, their functions and modifiers, and the declared
types.

* `Program.visibleFunctions`: the functions that the code of a contract may contain.
* `Program.methodAt?`: the function that an extent belongs to.
-/

namespace Solscope

/-- What a contract is declared as. -/
inductive ContractKind where
  | contract
  | library
  | interface
deriving DecidableEq, Repr

/-- The kind a declaration names; without a word for one, an older mark tells libraries apart. -/
def ContractKind.ofAttributes (kind : Option String) (isLibrary : Bool) : ContractKind :=
  match kind with
  | some "library" => .library
  | some "interface" => .interface
  | _ => if isLibrary then .library else .contract

/-- A contract, library or interface. -/
structure Contract where
  name : String
  /-- The source file of the definition. -/
  file : Nat
  kind : ContractKind
  /-- The number of the definition's node. -/
  nodeId : Option Nat
  /-- The numbers of the nodes of the contract and its bases, the most derived one first. -/
  linearizedIds : List Nat
  /-- The variables that the contract itself declares. -/
  stateVariables : List Variable
  /-- The methods that the contract itself declares. -/
  methods : List Method
  /-- The names of the direct bases. -/
  parentNames : List String
  /-- The direct bases. -/
  parents : List ContractId := []
  /-- The contract and its bases, the most derived one first. -/
  linearized : List ContractId := []
  /-- All state variables, those of bases included, placed in storage. -/
  layout : List Variable := []
deriving Repr

namespace Contract

/-- Whether a contract is a library. -/
def isLibrary (c : Contract) : Bool := c.kind = .library

/-- The number of the first method of a name. -/
def methodIndex? (c : Contract) (name : String) : Option Nat :=
  c.methods.findIdx? fun m => m.name = name

/-- The number of the first modifier of a name. -/
def modifierIndex? (c : Contract) (name : String) : Option Nat :=
  c.methods.findIdx? fun m => m.isModifier && m.name = name

/-- The numbers of the methods with a property. -/
def methodsWith (c : Contract) (property : Method → Bool) : List Nat :=
  (c.methods.zipIdx.filter fun (m, _) => property m).map Prod.snd

end Contract

/-- The contracts and types of a compilation. -/
structure Program where
  contracts : List Contract := []
  types : Declared := {}
  /-- The functions of libraries that are compiled into the code of contracts. -/
  libraryInternals : List MethodId := []
deriving Repr

namespace Program

/-- A contract by its number. -/
def contract? (p : Program) (id : ContractId) : Option Contract := p.contracts[id]?

/-- A method by its number. -/
def method? (p : Program) (id : MethodId) : Option Method :=
  (p.contract? id.contract).bind fun c => c.methods[id.index]?

/-- The first contract of a name. -/
def contractId? (p : Program) (name : String) : Option ContractId :=
  p.contracts.findIdx? fun c => c.name = name

/-- The first contract of a name in a source file. -/
def contractIn? (p : Program) (file : Nat) (name : String) : Option ContractId :=
  p.contracts.findIdx? fun c => c.file = file && c.name = name

/-- The names of contract and method with a dot between. -/
def qualifiedName (p : Program) (id : MethodId) : String :=
  match p.contract? id.contract, p.method? id with
  | some c, some m => c.name ++ "." ++ m.name
  | _, _ => s!"<unknown {id.contract}:{id.index}>"

/-- The contract and its bases, or the contract alone before they are known. -/
def bases (p : Program) (id : ContractId) : List ContractId :=
  match p.contract? id with
  | none => []
  | some c => if c.linearized.isEmpty then [id] else c.linearized

/-- The functions that contracts themselves declare. -/
def functionsOf (p : Program) (id : ContractId) : List MethodId :=
  match p.contract? id with
  | none => []
  | some c => (c.methodsWith Method.isFunction).map fun index => ⟨id, index⟩

/--
The functions that the code of a contract may contain: those of the contract and its bases, and
those of libraries that are compiled into it.
-/
def visibleFunctions (p : Program) (id : ContractId) : List MethodId :=
  match p.contract? id with
  | none => []
  | some _ => Distinct.ofList ((p.bases id).flatMap p.functionsOf ++ p.libraryInternals)

/-- The first of some methods with a property. -/
def firstWith? (p : Program) (property : Method → Bool) (ids : List MethodId) : Option MethodId :=
  ids.find? fun id => (p.method? id).any property

/--
The function that an extent belongs to, seen from a contract: one whose whole definition it is, else
one whose body it is. Extents inside a function belong to none.
-/
def methodAt? (p : Program) (contract : ContractId) (extent : Extent) : Option MethodId :=
  let candidates := p.visibleFunctions contract
  (p.firstWith? (fun m => m.extent = extent) candidates).or
    (p.firstWith? (fun m => m.body = some extent) candidates)

end Program

end Solscope
