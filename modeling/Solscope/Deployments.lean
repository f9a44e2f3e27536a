import Solscope.Address
import Solscope.Compilation

/-!
# Deployments

Which compiled contract runs at which address: said by the user (`Deployments.link`) or recognised
by its code (`Deployments.recognise`).

* `Deployments.at?`: everything known about the code at an address.
-/

namespace Solscope

/-- A compiled contract of a compilation. -/
structure CodeLink where
  /-- The number of the compilation. -/
  compilation : Nat
  /-- The number of the contract in its compilation. -/
  contract : Nat
deriving DecidableEq, Repr

/-- The known compilations and where their contracts run. -/
structure Deployments where
  compilations : List Compilation := []
  /-- What runs at addresses, in the order of these. -/
  links : List (Address × CodeLink) := []

namespace Deployments

/-- Why an address cannot be linked. -/
inductive LinkError where
  /-- There is no compilation of this number. -/
  | unknownCompilation (number : Nat)
  /-- The name means no contract. -/
  | name (e : Compilation.NameError)
deriving DecidableEq, Repr

/-- The wording of an error. -/
def LinkError.message : LinkError → String
  | .unknownCompilation number => s!"unknown debug unit {number}"
  | .name e => e.message

/-- Adds a compilation, whose number is that of the compilations before it. -/
def add (d : Deployments) (c : Compilation) : Deployments :=
  { d with compilations := d.compilations ++ [c] }

/-- The link of an address. -/
def link? (d : Deployments) (a : Address) : Option CodeLink := Ordered.find? a d.links

/-- Whether it is known what runs at an address. -/
def isLinked (d : Deployments) (a : Address) : Bool := (d.link? a).isSome

/-- Links an address to a contract, in place of what it was linked to. -/
def link (d : Deployments) (a : Address) (compilation : Nat) (name : String) :
    Except LinkError Deployments :=
  match d.compilations[compilation]? with
  | none => .error (.unknownCompilation compilation)
  | some c => match c.contractIndex name with
    | .ok contract => .ok { d with links := Ordered.insert a ⟨compilation, contract⟩ d.links }
    | .error e => .error (.name e)

/-- Forgets the link of an address. -/
def unlink (d : Deployments) (a : Address) : Deployments :=
  { d with links := d.links.filter fun entry => entry.1 ≠ a }

/-- Whether code is that of a contract; arguments may follow the code that creates it. -/
def isCodeOf (code : Bytes) (creation : Bool) (c : CompiledContract) : Bool :=
  if creation then c.creation.accepts code true else c.runtime.accepts code false

/-- The first contract of the first compilation that code is that of. -/
def ofCode? (d : Deployments) (code : Bytes) (creation : Bool) : Option CodeLink :=
  d.compilations.zipIdx.findSome? fun (c, compilation) =>
    (c.contracts.findIdx? (isCodeOf code creation)).map fun contract => ⟨compilation, contract⟩

/-- Links an address to the contract whose code it runs, unless it is linked already. -/
def recognise (d : Deployments) (a : Address) (code : Bytes) (creation : Bool) : Deployments :=
  if d.isLinked a then d
  else match d.ofCode? code creation with
    | some found => { d with links := Ordered.insert a found d.links }
    | none => d

end Deployments

/-- What is known about running code. -/
structure KnownCode where
  compilation : Compilation
  compiled : CompiledContract
  /-- The contract in the program. -/
  contract : ContractId
  sourceMap : SourceMap

/-- The program that the code belongs to. -/
def KnownCode.program (code : KnownCode) : Program := code.compilation.program

/-- What is known about the code at an address, which may be the code that creates a contract. -/
def Deployments.at? (d : Deployments) (a : Address) (creation : Bool) : Option KnownCode := do
  let link ← d.link? a
  let compilation ← d.compilations[link.compilation]?
  let compiled ← compilation.contracts[link.contract]?
  return {
    compilation
    compiled
    contract := ← compiled.contract
    sourceMap := if creation then compiled.creationMap else compiled.runtimeMap }

end Solscope
