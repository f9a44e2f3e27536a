import Solscope.Artifacts
import Solscope.Program.OfAsts
import Solscope.SourceMap

/-!
# Compilations

A compilation is a program together with its sources and with the code and the source maps of its
contracts.

* `Compilation.ofArtifacts`: what the compiler's output makes.
* `Compilation.contractIndex`: the compiled contract that a name means.
-/

namespace Solscope

/-- A contract with its code and source maps. -/
structure CompiledContract where
  /-- The path of the source file. -/
  path : String
  name : String
  /-- The contract in the program, if its definition is there. -/
  contract : Option ContractId
  /-- The code that creates the contract. -/
  creation : Bytecode
  /-- The code that is deployed. -/
  runtime : Bytecode
  creationMap : SourceMap
  runtimeMap : SourceMap
deriving Repr

/-- A program with its sources and compiled contracts. -/
structure Compilation where
  program : Program
  sources : Sources
  contracts : List CompiledContract

namespace Compilation

/-- Why artifacts make no compilation. -/
inductive Error where
  /-- The trees make no program. -/
  | program (e : ProgramError)
  /-- A source map of a contract cannot be read. -/
  | sourceMap (contract : String) (e : SourceMapError)
deriving DecidableEq, Repr

/-- What goes wrong, from the general to the particular. -/
def Error.messages : Error → List String
  | .program e => [e.message]
  | .sourceMap contract e => [s!"invalid source map for `{contract}`", e.message]

/-- The contract in a program that code belongs to: by path and name, else by name alone. -/
def contractOf? (sources : Sources) (program : Program) (code : CompiledCode) : Option ContractId :=
  ((sources.byPath? code.path).bind fun file => program.contractIn? file.index code.name).or
    (program.contractId? code.name)

/-- The instruction that starts the code of a deployed library, with the library's address. -/
def pushAddress : UInt8 := 0x73

/-- The deployed code; the address at the start of a library is not known beforehand. -/
def runtimeOf (program : Program) (contract : Option ContractId) (code : CompiledCode) : Bytecode :=
  let isLibrary := (contract.bind program.contract?).any (·.isLibrary)
  if isLibrary ∧ code.runtime.bytes.head? = some pushAddress then code.runtime.mask ⟨1, 21⟩
  else code.runtime

/-- Reads one of the source maps of a contract. -/
def readMap (sources : Sources) (name map : String) (code : Bytecode) : Except Error SourceMap :=
  match SourceMap.decode map code.bytes sources with
  | .ok map => .ok map
  | .error e => .error (.sourceMap name e)

/-- Reads a compiled contract. -/
def readContract (sources : Sources) (program : Program) (code : CompiledCode) :
    Except Error CompiledContract := do
  let contract := contractOf? sources program code
  return {
    path := code.path
    name := code.name
    contract
    creation := code.creation
    runtime := runtimeOf program contract code
    creationMap := ← readMap sources code.name code.creationMap code.creation
    runtimeMap := ← readMap sources code.name code.runtimeMap code.runtime }

/-- The compilation that artifacts make. -/
def ofArtifacts (a : Artifacts) : Except Error Compilation := do
  let program ← match Program.ofAsts a.sources a.asts with
    | .ok program => pure program
    | .error e => throw (.program e)
  return {
    program
    sources := a.sources
    contracts := ← a.contracts.mapM (readContract a.sources program) }

/-- Why a name means no contract. -/
inductive NameError where
  /-- No contract has the name. -/
  | unknown (name : String)
  /-- Several contracts have it. -/
  | ambiguous (name : String)
deriving DecidableEq, Repr

/-- The wording of an error. -/
def NameError.message : NameError → String
  | .unknown name => s!"unknown contract `{name}`"
  | .ambiguous name => s!"contract name `{name}` is ambiguous, use `path:Name`"

/-- Whether a name means a contract: `path:Name`, or the name alone. -/
def names (name : String) (c : CompiledContract) : Bool :=
  match Text.cutLast? ':' name.toList with
  | some (path, short) => c.path = String.ofList path && c.name = String.ofList short
  | none => c.name = name

/-- The number of the only compiled contract that a name means. -/
def contractIndex (c : Compilation) (name : String) : Except NameError Nat :=
  match c.contracts.zipIdx.filter fun (contract, _) => names name contract with
  | [] => .error (.unknown name)
  | [(_, index)] => .ok index
  | _ => .error (.ambiguous name)

end Compilation

end Solscope
