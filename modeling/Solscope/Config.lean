import Solscope.Read.Error
import Solscope.Size
import Solscope.Toml.Document

/-!
# Settings

`Config.parse` reads settings from a TOML document, which names only those that differ from the
defaults; keys of other names are passed over.
-/

namespace Solscope

/-- The settings of a debugging session. -/
structure Config where
  /-- How much is read of data whose length somebody else chose. -/
  limits : Limits := {}
  /-- Whether a pause shows the state variables of every call. -/
  showStorage : Bool := true
deriving DecidableEq, Repr

namespace Config

/-- Why there are no settings. -/
inductive Error where
  /-- The file cannot be read as text. -/
  | unreadable (path : String)
  /-- The text is no TOML document, or a setting has a value that it cannot have. -/
  | malformed
  /-- The text of a file is malformed. -/
  | malformedFile (path : String)
deriving DecidableEq, Repr

/-- What goes wrong, from the general to the particular. -/
def Error.messages : Error → List String
  | .unreadable path => [s!"Failed to read config file: {path}"]
  | .malformed => ["Failed to parse config as TOML"]
  | .malformedFile path => [s!"Invalid config file: {path}", "Failed to parse config as TOML"]

/-- A setting that is a size. -/
def size? (entries : List (String × Toml.Value)) (key : String) (absent : Nat) : Option Nat :=
  match Ordered.find? key entries with
  | none => some absent
  | some (.int n) => if 0 ≤ n ∧ n ≤ Size.largest then some n.toNat else none
  | some _ => none

/-- A setting that is true or false. -/
def flag? (entries : List (String × Toml.Value)) (key : String) (absent : Bool) : Option Bool :=
  match Ordered.find? key entries with
  | none => some absent
  | some (.bool b) => some b
  | some _ => none

/-- The settings that the entries of a document make. -/
def ofEntries? (entries : List (String × Toml.Value)) : Option Config := do
  let absent : Config := {}
  return {
    limits := {
      array := ← size? entries "max_array_elements" absent.limits.array
      mapping := ← size? entries "max_mapping_entries" absent.limits.mapping
      bytes := ← size? entries "max_bytes_length" absent.limits.bytes }
    showStorage := ← flag? entries "decode_storage" absent.showStorage }

/-- Reads settings from a document. -/
def parse (text : String) : Except Error Config :=
  match (Toml.Document.parse? text).bind ofEntries? with
  | some config => .ok config
  | none => .error .malformed

/-- Reads settings from the file at `path`, whose text is `content` if there is any. -/
def ofFile (path : String) (content : Option String) : Except Error Config :=
  match content with
  | none => .error (.unreadable path)
  | some text => match parse text with
    | .ok config => .ok config
    | .error _ => .error (.malformedFile path)

end Config

end Solscope
