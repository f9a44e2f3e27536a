import Solscope.Ast
import Solscope.Ty.Declared

/-!
# The types that syntax trees declare

`Declared.ofAsts` collects contracts, structs and enumerations before anything else is read, so that
a descriptor may name what is declared further on.
-/

namespace Solscope

namespace Ast

/-- The full name of a type declared inside `contract`. -/
def fullName? (node : Ast) (contract : Option String) : Option String :=
  (node.text? "canonicalName").or <| node.name?.map fun name =>
    match contract with
    | some contract => contract ++ "." ++ name
    | none => name

/--
Names and type descriptors of the members of a struct; a member that lacks either is left out.
-/
def structMembers (node : Ast) : List (String × String) :=
  (node.childrenOf "VariableDeclaration").filterMap fun m => do
    return (← m.name?, ← m.text? "type")

/-- The names of the members of an enumeration. -/
def enumMembers (node : Ast) : List String := (node.childrenOf "EnumValue").filterMap name?

end Ast

namespace Declared

/-- Adds the struct or enumeration that a node inside `contract` declares. -/
def addNode (types : Declared) (contract : Option String) (node : Ast) : Declared :=
  match node.kind, node.fullName? contract with
  | "StructDefinition", some name => types.addStruct ⟨name, contract, node.structMembers⟩
  | "EnumDefinition", some name => types.addEnum ⟨name, node.enumMembers⟩
  | _, _ => types

mutual

/-- Adds what a tree inside `contract` declares. A contract without a name declares nothing. -/
def addTree (types : Declared) (contract : Option String) : Ast → Declared
  | ⟨id, kind, src, attributes, children⟩ =>
    let node : Ast := ⟨id, kind, src, attributes, children⟩
    if kind = "ContractDefinition" then
      match node.name? with
      | some name => addTrees (types.addContract name) (some name) children
      | none => types
    else addTrees (types.addNode contract node) contract children

/-- Adds what trees inside `contract` declare. -/
def addTrees (types : Declared) (contract : Option String) : List Ast → Declared
  | [] => types
  | node :: rest => addTrees (addTree types contract node) contract rest

end

/-- The types that the trees of a compilation declare. -/
def ofAsts (asts : List Ast) : Declared := addTrees {} none asts

end Declared

end Solscope
