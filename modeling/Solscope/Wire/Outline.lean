import Solscope.Bytecode
import Solscope.Wire.Program

/-!
# Outlines

An outline is JSON for looking at: what a type consists of, and what contracts, methods and
variables a program has. Extents and types are given as texts, numbers of methods as pairs.
-/

namespace Solscope

/-- Names as JSON. -/
def Json.names (names : List String) : Json := .arr (names.map .str)

/-- Two values one after the other. -/
def Json.pair (a b : Json) : Json := .arr [a, b]

namespace Ty

/-- A member of an object that says what kind of type it describes. -/
def kindMember (kind : String) : String × Json := ("kind", .str kind)

mutual

/-- What a type consists of. -/
def outline : Ty → Json
  | uint n => .obj [kindMember "uint", ("bytes", .nat n)]
  | int n => .obj [kindMember "int", ("bytes", .nat n)]
  | fixedBytes n => .obj [kindMember "fixed_bytes", ("bytes", .nat n)]
  | bool => .obj [kindMember "bool"]
  | address => .obj [kindMember "address"]
  | bytes => .obj [kindMember "bytes"]
  | string => .obj [kindMember "string"]
  | struct name fields =>
    .obj [kindMember "struct", ("name", .str name), ("fields", .arr (outlineOfFields fields))]
  | structRef r => .obj [kindMember "struct_ref", ("name", .str r.name)]
  | enum name members =>
    .obj [kindMember "enum", ("name", .str name), ("members", Json.names members)]
  | staticArray element length =>
    .obj [kindMember "static_array", ("element", outline element), ("length", .nat length)]
  | dynamicArray element => .obj [kindMember "dynamic_array", ("element", outline element)]
  | mapping key value =>
    .obj [kindMember "mapping", ("key", outline key), ("value", outline value)]
  | contract name => .obj [kindMember "contract", ("name", .str name)]

/-- Names and types of the members of a struct. -/
def outlineOfFields : List (String × Ty) → List Json
  | [] => []
  | (name, t) :: rest => Json.pair (.str name) (outline t) :: outlineOfFields rest

end

end Ty

/-- An extent as text. -/
def Extent.outline (e : Extent) : Json := .str e.text

/-- A byte of storage. -/
def SlotCursor.outline (c : SlotCursor) : Json := Json.pair (.str c.slot.hex) (.nat c.offset)

/-- The two numbers of a method. -/
def MethodId.outline (id : MethodId) : Json := Json.pair (.nat id.contract) (.nat id.index)

/-- Code and the places in it that are not known. -/
def Bytecode.outline (c : Bytecode) : Json := .obj [
  ("bytes", .str c.bytes.hex),
  ("placeholders", .arr (c.placeholders.map fun r => Json.pair (.nat r.start) (.nat r.stop)))]

/-- Everything about a variable. -/
def Variable.outline (v : Variable) : Json := .obj [
  ("name", .str v.name), ("descriptor", .str v.descriptor),
  ("type", Json.option .str (v.ty.map Ty.text)), ("location", .str v.location.text),
  ("stack_slots", .nat v.stackSlots), ("stack_offset", .nat v.stackOffset),
  ("storage", Json.option SlotCursor.outline v.storage),
  ("declaration", Json.option Extent.outline v.declaration),
  ("scope", Json.option Extent.outline v.scope), ("kind", v.kind.toJson)]

/-- Everything about an invocation. -/
def Invocation.outline (i : Invocation) : Json := .obj [
  ("name", .str i.name), ("site", Json.option Extent.outline i.site),
  ("method", Json.option MethodId.outline i.method), ("stack_offset", .nat i.stackOffset)]

/-- Everything about a method. -/
def Method.outline (m : Method) : Json := .obj [
  ("name", .str m.name), ("contract", .nat m.contract), ("file", .nat m.file),
  ("function", .bool m.isFunction), ("modifier", .bool m.isModifier),
  ("constructor", .bool m.isConstructor), ("visibility", m.visibility.toJson),
  ("extent", m.extent.outline), ("body", Json.option Extent.outline m.body),
  ("arguments", .arr (m.arguments.map Variable.outline)),
  ("returns", .arr (m.results.map Variable.outline)),
  ("locals", .arr (m.locals.map Variable.outline)),
  ("modifiers", .arr (m.invocations.map Invocation.outline)),
  ("declaration_spans", .arr (m.declarations.map Extent.outline)),
  ("argument_slots", .nat m.argumentSlots), ("own_slots", .nat m.ownSlots),
  ("total_slots", .nat m.totalSlots)]

/-- Everything about a contract. -/
def Contract.outline (c : Contract) : Json := .obj [
  ("name", .str c.name), ("file", .nat c.file), ("kind", c.kind.toJson),
  ("library", .bool c.isLibrary), ("ast_id", Json.option .nat c.nodeId),
  ("linearized_ids", .arr (c.linearizedIds.map .nat)), ("parent_names", Json.names c.parentNames),
  ("parents", .arr (c.parents.map .nat)), ("linearized", .arr (c.linearized.map .nat)),
  ("state_variables", .arr (c.stateVariables.map Variable.outline)),
  ("storage_layout", .arr (c.layout.map Variable.outline)),
  ("methods", .arr (c.methods.map Method.outline))]

end Solscope
