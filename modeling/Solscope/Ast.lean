import Solscope.Json.Record
import Solscope.Source.Position

/-!
# Syntax trees

The compiler describes a source unit by a tree of nodes, each with a kind, a place in the sources,
free attributes and its children in source order.

* `Ast.ofJson?`, `Ast.toJson`: trees as JSON.
* `Ast.range`: the place of a node, which generated nodes do not have.
-/

namespace Solscope

/-- A node of a syntax tree with everything below it. -/
structure Ast where
  /-- A number of its own within a compilation. -/
  id : Option Nat := none
  /-- The kind of the node, such as `ContractDefinition`. -/
  kind : String
  /-- The place of the node as `start:length:file`. -/
  src : String := ""
  /-- What the compiler says about the node, by name. -/
  attributes : List (String × Json) := []
  /-- The nodes below in source order. -/
  children : List Ast := []
deriving Inhabited

/-- Why a node cannot be understood. -/
inductive AstError where
  /-- The place is no `start:length:file`. -/
  | invalidPlace (src : String)
  /-- The node has no attribute `name`. -/
  | nameless (kind : String)
  /-- The JSON is no tree. -/
  | json
deriving DecidableEq, Repr

/-- The wording of an error. -/
def AstError.message : AstError → String
  | .invalidPlace src => s!"invalid source location `{src}`"
  | .nameless kind => s!"malformed {kind} node: missing `name` attribute"
  | .json => "the JSON describes no tree of nodes"

namespace Ast

/-- The names of the fields of a node. -/
def fieldNames : List (List String) := [["id"], ["name"], ["src"], ["attributes"], ["children"]]

/--
The tree that a JSON value describes, if it has no more than `levels` levels, given how attributes
are read.
-/
def ofJsonWithin (readValue : Json → Option Json) : (levels : Nat) → Json → Option Ast
  | 0, _ => none
  | levels + 1, j => do
    let [id, kind, src, attributes, children] ← Json.fields? fieldNames j | none
    return {
      id := ← Json.defaulting none (Json.nullable Json.asSize?) id
      kind := ← Json.required Json.asStr? kind
      src := ← Json.defaulting "" Json.asStr? src
      attributes := ← Json.defaulting [] (Json.asMap? readValue) attributes
      children := ← Json.defaulting [] (Json.asList? (ofJsonWithin readValue levels)) children }

/-- The tree that a JSON value describes, given how attributes are read. -/
def ofJson? (readValue : Json → Option Json) (j : Json) : Option Ast :=
  ofJsonWithin readValue (j.depth + 1) j

mutual

/-- A tree as JSON, with all fields of every node. -/
def toJson : Ast → Json
  | ⟨id, kind, src, attributes, children⟩ => .obj [
      ("id", Json.option .nat id), ("name", .str kind), ("src", .str src),
      ("attributes", .obj attributes), ("children", .arr (toJsonItems children))]

/-- Trees as JSON. -/
def toJsonItems : List Ast → List Json
  | [] => []
  | node :: rest => toJson node :: toJsonItems rest

end

/-- An attribute. -/
def attribute? (node : Ast) (key : String) : Option Json := Ordered.find? key node.attributes

/-- An attribute that is a string. -/
def text? (node : Ast) (key : String) : Option String := (node.attribute? key).bind Json.asStr?

/-- Whether an attribute is there and true. -/
def flag (node : Ast) (key : String) : Bool :=
  ((node.attribute? key).bind Json.asBool?).getD false

/-- The node numbers in an attribute that is an array; other items are passed over. -/
def ids (node : Ast) (key : String) : List Nat :=
  (((node.attribute? key).bind Json.asArr?).getD []).filterMap Json.asSize?

/-- The name that a node declares. -/
def name? (node : Ast) : Option String := node.text? "name"

/-- The name that a node must declare. -/
def requireName (node : Ast) : Except AstError String :=
  match node.name? with
  | some name => .ok name
  | none => .error (.nameless node.kind)

/--
The place of a node; a negative number stands for none. Fields after the third carry no meaning.
-/
def range (node : Ast) : Except AstError (Option SourceRange) :=
  let place? := match (node.src.toList.splitOn ':').map Text.readInt with
    | .ok start :: .ok length :: .ok file :: _ =>
      some <| if 0 ≤ start ∧ 0 ≤ length ∧ 0 ≤ file then
        some (SourceRange.mk file.toNat start.toNat length.toNat) else none
    | _ => none
  match place? with
  | some place => .ok place
  | none => .error (.invalidPlace node.src)

/-- The children of a kind. -/
def childrenOf (node : Ast) (kind : String) : List Ast :=
  node.children.filter fun child => child.kind = kind

/-- The first child of a kind. -/
def child? (node : Ast) (kind : String) : Option Ast :=
  node.children.find? fun child => child.kind = kind

mutual

/-- A node and all nodes below it, parents before their children. -/
def preorder : Ast → List Ast
  | ⟨id, kind, src, attributes, children⟩ =>
    ⟨id, kind, src, attributes, children⟩ :: preorderAll children

/-- Nodes and all nodes below them. -/
def preorderAll : List Ast → List Ast
  | [] => []
  | node :: rest => preorder node ++ preorderAll rest

end

end Ast

end Solscope
