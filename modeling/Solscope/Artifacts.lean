import Solscope.Ast
import Solscope.Bytecode
import Solscope.Json.Parser
import Solscope.Source.File

/-!
# Compiler output

The compiler writes one JSON object with all contracts, all syntax trees and the list of sources.
The texts of the sources come from elsewhere.

* `Artifacts.Combined.parse?`: the parts of the object that matter here.
* `Artifacts.read`: the sources, trees and contracts of a compilation.
-/

namespace Solscope

/-- A compiled contract. -/
structure CompiledCode where
  /-- The path of the source file. -/
  path : String
  name : String
  /-- The code that creates the contract. -/
  creation : Bytecode
  /-- The code that is deployed. -/
  runtime : Bytecode
  creationMap : String
  runtimeMap : String
deriving Repr

/-- What the compiler makes of a compilation. -/
structure Artifacts where
  sources : Sources := {}
  /-- The syntax trees in the order of the sources. -/
  asts : List Ast := []
  contracts : List CompiledCode := []

namespace Artifacts

/-- Why there are no artifacts. -/
inductive Error where
  /-- The output is not the JSON that the compiler writes. -/
  | json
  /-- A source file cannot be read as text. -/
  | unreadable (path : String)
  /-- Nobody knows the text of a source. -/
  | missingSource (path : String)
  /-- There is no syntax tree for a source. -/
  | missingAst (path : String)
  /-- A syntax tree cannot be understood. -/
  | ast (e : AstError)
  /-- The code of a contract cannot be read. -/
  | bytecode (contract : String) (reason : Bytecode.Error)
deriving DecidableEq, Repr

/-- The wording of an error, if there is a way to go on from it. -/
def Error.message? : Error → Option String
  | .json => some "invalid compiler output"
  | .unreadable path => some s!"failed to read source {path}"
  | .missingSource path => some s!"no source text for `{path}`"
  | .missingAst path => some s!"no legacy AST for `{path}`"
  | .ast e => some e.message
  | .bytecode contract reason =>
    reason.message?.map fun text => s!"invalid bytecode for `{contract}`: {text}"

/-! ## The output of the compiler -/

namespace Combined

/-- A contract as the compiler writes it. -/
structure Contract where
  creation : String
  runtime : String
  creationMap : String
  runtimeMap : String
deriving Repr

/-- The names of the parts of the output. -/
def fieldNames : List (List String) := [["contracts"], ["sourceList"], ["sources"]]

/-- The names of the parts of a contract. -/
def contractFields : List (List String) :=
  [["bin"], ["bin-runtime"], ["srcmap"], ["srcmap-runtime"]]

/-- The names of the parts of a source. -/
def sourceFields : List (List String) := [["AST", "legacyAST"]]

/-- All of each field, and nothing of other members. -/
def allOf (names : List (List String)) : Json.Wanted :=
  .fields (names.map fun alternatives => (alternatives, .everything))

/-- The parts of the output that matter here. -/
def wanted : Json.Wanted :=
  .fields (fieldNames.zip [.each (allOf contractFields), .everything, .each (allOf sourceFields)])

/-- A contract that a JSON value describes. -/
def contract? (j : Json) : Option Contract := do
  let [creation, runtime, creationMap, runtimeMap] ← Json.fields? contractFields j | none
  return {
    creation := ← Json.defaulting "" Json.asStr? creation
    runtime := ← Json.defaulting "" Json.asStr? runtime
    creationMap := ← Json.defaulting "" Json.asStr? creationMap
    runtimeMap := ← Json.defaulting "" Json.asStr? runtimeMap }

/-- The syntax tree of a source that a JSON value describes, if it has one, not yet understood. -/
def source? (readTree : Json → Option Json) (j : Json) : Option (Option Json) := do
  let [tree] ← Json.fields? sourceFields j | none
  Json.defaulting none (Json.nullable readTree) tree

end Combined

/-- The parts of the compiler's output that matter here. -/
structure Combined where
  /-- Contracts by path and name, in the order of these. -/
  contracts : List (String × Combined.Contract)
  /-- The paths of the sources, in the compiler's order. -/
  sourceList : List String
  /-- Syntax trees by path. -/
  trees : List (String × Option Json)

namespace Combined

/-- The output that a JSON value describes, given how trees are read. -/
def ofJson? (readTree : Json → Option Json) (j : Json) : Option Combined := do
  let [contracts, sourceList, sources] ← Json.fields? fieldNames j | none
  return {
    contracts := ← Json.defaulting [] (Json.asMap? contract?) contracts
    sourceList := ← Json.defaulting [] (Json.asList? Json.asStr?) sourceList
    trees := ← Json.defaulting [] (Json.asMap? (source? readTree)) sources }

/-- The output that a text spells, given how trees are read. -/
def parse? (readTree : Json → Option Json) (text : String) : Option Combined :=
  (Json.parseWanted? wanted text).bind (ofJson? readTree)

end Combined

/-! ## The artifacts -/

/--
Adds the sources `paths`, the first of them of number `index`, with their trees. A tree serves for
one source only, so a path that is listed twice has none the second time.
-/
def readSources (readValue : Json → Option Json) (load : String → Except Error String)
    (trees : List (String × Option Json)) (index : Nat) (a : Artifacts) :
    List String → Except Error Artifacts
  | [] => .ok a
  | path :: rest => do
    let content ← load path
    let some tree := (Ordered.find? path trees).join | throw (.missingAst path)
    let some ast := Ast.ofJson? readValue tree | throw (.ast .json)
    let a := { a with sources := a.sources.add index path content, asts := a.asts ++ [ast] }
    readSources readValue load (Ordered.insert path none trees) (index + 1) a rest

/-- The path and the name in the key of a contract: the last colon separates them. -/
def splitKey (key : String) : String × String :=
  match Text.cutLast? ':' key.toList with
  | some (path, name) => (String.ofList path, String.ofList name)
  | none => ("", key)

/-- Reads the code of a contract. -/
def readCode (key code : String) : Except Error Bytecode :=
  match Bytecode.parse code with
  | .ok bytecode => .ok bytecode
  | .error reason => .error (.bytecode key reason)

/-- Reads a contract. -/
def readContract (key : String) (c : Combined.Contract) : Except Error CompiledCode := do
  let (path, name) := splitKey key
  return {
    path
    name
    creation := ← readCode key c.creation
    runtime := ← readCode key c.runtime
    creationMap := c.creationMap
    runtimeMap := c.runtimeMap }

/-- Reads the compiler's output; `load` gives the texts of the sources. -/
def read (library : Json.Library) (text : String) (load : String → Except Error String) :
    Except Error Artifacts := do
  let some output := Combined.parse? library.ofText text | throw .json
  let a ← readSources library.ofValue load output.trees 0 {} output.sourceList
  return { a with contracts := ← output.contracts.mapM fun (key, c) => readContract key c }

end Artifacts

end Solscope
