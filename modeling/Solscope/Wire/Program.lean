import Solscope.Json.Record
import Solscope.Program.Basic

/-!
# Numbers and kinds of contracts, methods and variables as JSON
-/

namespace Solscope

namespace VariableKind

/-- The names of the kinds of variables. -/
def names : List (String × VariableKind) :=
  [("State", .state), ("Argument", .argument), ("Return", .result), ("Local", .local)]

/-- A kind of variables as JSON. -/
def toJson (k : VariableKind) : Json := .str (Json.nameOf names k)

/-- The kind of variables that a JSON value names. -/
def ofJson? (j : Json) : Option VariableKind := Json.oneOf? names j

end VariableKind

namespace Visibility

/-- The names of the visibilities. -/
def names : List (String × Visibility) :=
  [("External", .external), ("Public", .public), ("Internal", .internal), ("Private", .private)]

/-- A visibility as JSON. -/
def toJson (v : Visibility) : Json := .str (Json.nameOf names v)

/-- The visibility that a JSON value names. -/
def ofJson? (j : Json) : Option Visibility := Json.oneOf? names j

end Visibility

namespace ContractKind

/-- The names of the kinds of contracts. -/
def names : List (String × ContractKind) :=
  [("Contract", .contract), ("Library", .library), ("Interface", .interface)]

/-- A kind of contracts as JSON. -/
def toJson (k : ContractKind) : Json := .str (Json.nameOf names k)

/-- The kind of contracts that a JSON value names. -/
def ofJson? (j : Json) : Option ContractKind := Json.oneOf? names j

end ContractKind

namespace MethodKind

/-- A kind of methods as JSON. -/
def toJson : MethodKind → Json
  | .modifier => .str "Modifier"
  | .function isConstructor visibility => .obj [("Function",
      .obj [("is_constructor", .bool isConstructor), ("visibility", visibility.toJson)])]

/-- What a JSON object says about a function. -/
def functionOfJson? (members : List (String × Json)) : Option MethodKind := do
  let [isConstructor, visibility] ←
    Json.fields? [["is_constructor"], ["visibility"]] (.obj members) | none
  return .function (← Json.required Json.asBool? isConstructor)
    (← Json.required Visibility.ofJson? visibility)

/-- The kind of methods that a JSON value describes. -/
def ofJson? : Json → Option MethodKind
  | .obj [("Function", .obj members)] => functionOfJson? members
  | j => Json.oneOf? [("Modifier", .modifier)] j

end MethodKind

namespace MethodId

/-- The numbers of a method as JSON. -/
def toJson (id : MethodId) : Json :=
  .obj [("contract", .nat id.contract), ("index", .nat id.index)]

/-- The numbers of a method that a JSON value describes. -/
def ofJson? (j : Json) : Option MethodId := do
  let [contract, index] ← Json.fields? [["contract"], ["index"]] j | none
  return ⟨← Json.required Json.asSize? contract, ← Json.required Json.asSize? index⟩

end MethodId

end Solscope
