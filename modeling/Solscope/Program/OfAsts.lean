import Solscope.Program.Declarations
import Solscope.Program.Inheritance
import Solscope.Program.Invocations
import Solscope.Program.StorageLayout

/-!
# Programs from syntax trees

First the types are collected, then the contracts, and then what ties contracts together: bases,
storage and modifiers, which may be declared further on.
-/

namespace Solscope

/-- The functions of a library that are compiled into the code that calls them. -/
def Contract.internals (c : Contract) (id : ContractId) : List MethodId :=
  if c.isLibrary then
    (c.methodsWith fun m => m.isFunction && m.visibility.isInternal).map fun index => ⟨id, index⟩
  else []

namespace Program

/-- The program of contracts that know of each other by name only. -/
def link (types : Declared) (contracts : List Contract) : Program :=
  let contracts := Inheritance.resolve contracts
  let contracts := contracts.map (Contract.layOut types contracts)
  let contracts := contracts.map (Contract.bindInvocations contracts)
  { contracts, types, libraryInternals := contracts.zipIdx.flatMap fun (c, id) => c.internals id }

/-- The program that the trees of a compilation make. -/
def ofAsts (sources : Sources) (asts : List Ast) : Except ProgramError Program := do
  let types := Declared.ofAsts asts
  let nodes := asts.flatMap fun ast => ast.childrenOf "ContractDefinition"
  return link types (← Ast.contractsFrom ⟨sources, types⟩ 0 nodes)

end Program

end Solscope
