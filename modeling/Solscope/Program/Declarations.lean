import Solscope.Program.Basic
import Solscope.Program.Types
import Solscope.Source.File

/-!
# The contracts that syntax trees declare

Contracts are read one by one, without regard to each other: bases and modifiers are still names.

* `Ast.contract`: the contract that a node declares.
* `Ast.locals`: the local variables below a node, each with its declaration and the block around it.
-/

namespace Solscope

/-- Why trees make no program. -/
inductive ProgramError where
  /-- A node cannot be understood. -/
  | ast (e : AstError)
  /-- A node lies in a source file that is not there. -/
  | missingSource (file : Nat)
  /-- A definition has no place. -/
  | missingPlace (kind name : String)
deriving DecidableEq, Repr

/-- The wording of an error. -/
def ProgramError.message : ProgramError → String
  | .ast e => e.message
  | .missingSource file => s!"source file {file} is not available"
  | .missingPlace kind name => s!"{kind} `{name}` has no source location"

/-- What reading a contract needs of the rest of the compilation. -/
structure Surroundings where
  sources : Sources
  types : Declared

namespace Ast

/-- The extent of a node, if it has one. -/
def extent? (sources : Sources) (node : Ast) : Except ProgramError (Option Extent) :=
  match node.range with
  | .error e => .error (.ast e)
  | .ok none => .ok none
  | .ok (some range) => match sources.extent? range with
    | some extent => .ok (some extent)
    | none => .error (.missingSource range.file)

/-- The extent that a definition must have. -/
def extent (sources : Sources) (node : Ast) : Except ProgramError Extent := do
  match ← node.extent? sources with
  | some extent => return extent
  | none => throw (.missingPlace node.kind (node.name?.getD ""))

/-- The variable that a node in `contract` declares. -/
def variableIn (node : Ast) (types : Declared) (contract : String) (location : Location)
    (kind : VariableKind) : Variable :=
  let descriptor := (node.text? "type").getD ""
  .ofTy (node.name?.getD "") descriptor (types.resolve? descriptor (some contract)) location kind

/-- The location that a node names. -/
def location (node : Ast) : Location := .ofAttribute (node.text? "storageLocation")

/-- The variables that a list of parameters declares. -/
def parameters (list : Ast) (types : Declared) (contract : String) (kind : VariableKind) :
    List Variable :=
  (list.childrenOf "VariableDeclaration").map fun p => p.variableIn types contract p.location kind

/-- The local variables below a node, and the places of the statements that declare them. -/
structure Locals where
  vars : List Variable := []
  declarations : List Extent := []

/-- Both one after the other. -/
def Locals.append (a b : Locals) : Locals :=
  ⟨a.vars ++ b.vars, a.declarations ++ b.declarations⟩

/-- Whether nodes of a kind bound the visibility of the variables declared in them. -/
def isScope (kind : String) : Bool :=
  kind = "Block" || kind = "ForStatement" || kind = "UncheckedBlock"

/-- The local variables that a statement inside `scope` declares. -/
def declaredLocals (around : Surroundings) (contract : String) (scope : Option Extent)
    (node : Ast) : Except ProgramError Locals := do
  if node.kind = "VariableDeclarationStatement" then
    let declaration ← node.extent? around.sources
    let vars := (node.childrenOf "VariableDeclaration").map fun v =>
      { v.variableIn around.types contract v.location .local with declaration, scope }
    return ⟨vars, declaration.toList⟩
  else return {}

mutual

/-- The local variables in the tree below a node inside `scope`, in the order of the statements. -/
def locals (around : Surroundings) (contract : String) (scope : Option Extent) :
    Ast → Except ProgramError Locals
  | ⟨id, kind, src, attributes, children⟩ => do
    let node : Ast := ⟨id, kind, src, attributes, children⟩
    let scope ← if isScope kind then (·.or scope) <$> node.extent? around.sources else pure scope
    let own ← node.declaredLocals around contract scope
    return own.append (← localsOfAll around contract scope children)

/-- The local variables in the trees below nodes inside `scope`. -/
def localsOfAll (around : Surroundings) (contract : String) (scope : Option Extent) :
    List Ast → Except ProgramError Locals
  | [] => .ok {}
  | node :: rest => do
    let first ← locals around contract scope node
    return first.append (← localsOfAll around contract scope rest)

end

/-- The modifier that a node invokes, known by its name. -/
def invocation (node : Ast) (sources : Sources) : Except ProgramError Invocation := do
  let name := node.children.head?.bind fun target => (target.text? "value").or target.name?
  return { name := name.getD "", site := ← node.extent? sources }

/-- Whether a function of `contract` is its constructor. -/
def isConstructorOf (node : Ast) (contract : String) : Bool :=
  node.flag "isConstructor" || node.text? "kind" = some "constructor" ||
    node.name?.getD "" = contract

/-- The name of a method; one without a name is called after its kind. -/
def methodName (node : Ast) (isConstructor : Bool) : String :=
  if isConstructor then "constructor"
  else match node.name?.getD "" with
    | "" => (node.text? "kind").getD "fallback"
    | name => name

/-- The function or modifier that a node in the contract of number `id` declares. -/
def method (around : Surroundings) (id : ContractId) (contract : String) (isModifier : Bool)
    (node : Ast) : Except ProgramError Method := do
  let extent ← node.extent around.sources
  let isConstructor := !isModifier && node.isConstructorOf contract
  let lists := node.childrenOf "ParameterList"
  let vars (list : Option Ast) (kind : VariableKind) : List Variable :=
    (list.map fun list => list.parameters around.types contract kind).getD []
  let block := node.child? "Block"
  let body ← match block with
    | some block => block.extent? around.sources
    | none => pure none
  let found ← match block with
    | some block => block.locals around contract body
    | none => pure {}
  let invocations ← (node.childrenOf "ModifierInvocation").mapM fun i => i.invocation around.sources
  let method : Method := {
    name := node.methodName isConstructor
    contract := id
    file := extent.file
    kind := if isModifier then .modifier
      else .function isConstructor (.ofAttribute (node.text? "visibility"))
    extent
    body
    arguments := vars lists[0]? .argument
    results := if isModifier then [] else vars lists[1]? .result
    locals := found.vars
    invocations
    declarations := found.declarations
    ownSlots := 0
    totalSlots := 0 }
  return method.place

/-- Whether a declaration in a contract takes no storage. -/
def isConstant (node : Ast) : Bool :=
  node.flag "constant" || node.text? "mutability" = some "constant" ||
    node.text? "mutability" = some "immutable"

/-- The names of the direct bases of a contract. -/
def parentNames (node : Ast) : List String :=
  (node.childrenOf "InheritanceSpecifier").filterMap fun base =>
    base.children.head?.bind name?

/-- The state variables that a contract declares. -/
def stateVariables (node : Ast) (types : Declared) (contract : String) : List Variable :=
  ((node.childrenOf "VariableDeclaration").filter fun v => !v.isConstant).map fun v =>
    v.variableIn types contract .storage .state

/-- The methods that a contract of number `id` declares. -/
def methods (node : Ast) (around : Surroundings) (id : ContractId) (contract : String) :
    Except ProgramError (List Method) :=
  (node.children.filter fun child =>
    child.kind = "FunctionDefinition" || child.kind = "ModifierDefinition").mapM fun child =>
      child.method around id contract (child.kind = "ModifierDefinition")

/-- The contract of number `id` that a node declares. -/
def contract (around : Surroundings) (id : ContractId) (node : Ast) :
    Except ProgramError Contract := do
  let name ← match node.requireName with
    | .ok name => pure name
    | .error e => throw (.ast e)
  let extent ← node.extent around.sources
  return {
    name
    file := extent.file
    kind := .ofAttributes (node.text? "contractKind") (node.flag "isLibrary")
    nodeId := node.id
    linearizedIds := node.ids "linearizedBaseContracts"
    stateVariables := node.stateVariables around.types name
    methods := ← node.methods around id name
    parentNames := node.parentNames }

/-- The contracts that nodes declare, the first of them of number `id`. -/
def contractsFrom (around : Surroundings) (id : ContractId) :
    List Ast → Except ProgramError (List Contract)
  | [] => .ok []
  | node :: rest => do
    let c ← node.contract around id
    return c :: (← contractsFrom around (id + 1) rest)

end Ast

end Solscope
