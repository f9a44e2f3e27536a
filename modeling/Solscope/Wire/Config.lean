import Solscope.Config
import Solscope.Json.Record

/-!
# Settings as JSON
-/

namespace Solscope.Config

/-- Settings as JSON. -/
def toJson (c : Config) : Json := .obj [
  ("max_array_elements", .nat c.limits.array), ("max_mapping_entries", .nat c.limits.mapping),
  ("max_bytes_length", .nat c.limits.bytes), ("decode_storage", .bool c.showStorage)]

/-- The settings that a JSON value describes; those it lacks have their defaults. -/
def ofJson? (j : Json) : Option Config := do
  let [array, mapping, bytes, showStorage] ← Json.fields? [["max_array_elements"],
    ["max_mapping_entries"], ["max_bytes_length"], ["decode_storage"]] j | none
  let absent : Config := {}
  return {
    limits := {
      array := ← Json.defaulting absent.limits.array Json.asSize? array
      mapping := ← Json.defaulting absent.limits.mapping Json.asSize? mapping
      bytes := ← Json.defaulting absent.limits.bytes Json.asSize? bytes }
    showStorage := ← Json.defaulting absent.showStorage Json.asBool? showStorage }

end Solscope.Config
