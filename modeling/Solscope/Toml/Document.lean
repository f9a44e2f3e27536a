import Solscope.Toml.Scalar
import Solscope.Toml.Scanner

/-!
# TOML documents

A document binds keys to values; headers say in which table. `Document.parse?` reads a document and
gives nothing if it is malformed or binds a key twice.
-/

namespace Solscope.Toml.Document

open Scanner

/-- How many arrays and tables may be written one inside the other. -/
def nestingLimit : Nat := 80

/-- Whether a character may be part of a word, that is, of a number, a date or a boolean. -/
def isWordChar (c : Char) : Bool := !(c ∈ [' ', '\t', '\n', '\r', ',', ']', '\x7d', '#'])

/-- The value of a word. -/
def word? (word : List Char) : Option Value :=
  match String.ofList word with
  | "true" => some (.bool true)
  | "false" => some (.bool false)
  | spelling =>
    match Scalar.integer? word with
    | some n => some (.int n)
    | none =>
      if Scalar.isFloat word then some (.float spelling)
      else if Scalar.isMoment word then some (.moment spelling)
      else none

/-- The word at the start of a text; a time may follow a date after a space. -/
def cutWord (cs : List Char) : List Char × List Char :=
  let word := cs.takeWhile isWordChar
  match cs.dropWhile isWordChar with
  | ' ' :: d :: rest =>
    if Scalar.isDate word && d.isDigit then
      let time := (d :: rest).takeWhile isWordChar
      (word ++ ' ' :: time, (d :: rest).dropWhile isWordChar)
    else (word, ' ' :: d :: rest)
  | rest => (word, rest)

/-- A key with its value. -/
structure Binding where
  /-- The parts of the key before the last one. -/
  path : List String
  /-- The last part of the key. -/
  key : String
  value : Value

mutual

/--
The value at the start of a text, inside `nesting` more arrays and tables at most, and what follows
it; `fuel` bounds the steps.
-/
def valueFrom : (fuel nesting : Nat) → List Char → Option (Value × List Char)
  | 0, _, _ => none
  | fuel + 1, nesting, cs =>
    match cs with
    | '"' :: _ | '\'' :: _ => (string? cs).map fun (text, rest) => (.str text, rest)
    | '[' :: rest =>
      match nesting with
      | 0 => none
      | nesting + 1 => itemsFrom fuel nesting [] rest
    | '\x7b' :: rest =>
      match nesting with
      | 0 => none
      | nesting + 1 => membersFrom fuel nesting ⟨.inline, []⟩ rest
    | _ =>
      let (word, rest) := cutWord cs
      (word? word).map fun v => (v, rest)
termination_by structural fuel => fuel

/-- The rest of an array after the items `acc`, kept in reverse. -/
def itemsFrom : (fuel nesting : Nat) → (acc : List Value) → List Char → Option (Value × List Char)
  | 0, _, _, _ => none
  | fuel + 1, nesting, acc, cs =>
    match dropLines cs with
    | ']' :: rest => some (.arr acc.reverse, rest)
    | cs =>
      match valueFrom fuel nesting cs with
      | none => none
      | some (item, rest) =>
        match dropLines rest with
        | ',' :: rest => itemsFrom fuel nesting (item :: acc) rest
        | ']' :: rest => some (.arr (item :: acc).reverse, rest)
        | _ => none
termination_by structural fuel => fuel

/-- The rest of a table between braces after the entries of `t`. -/
def membersFrom : (fuel nesting : Nat) → (t : Table) → List Char → Option (Value × List Char)
  | 0, _, _, _ => none
  | fuel + 1, nesting, t, cs =>
    match dropLines cs with
    | '\x7d' :: rest => some (.table t.origin t.entries, rest)
    | cs =>
      match bindingFrom fuel nesting dropLines cs with
      | none => none
      | some (b, rest) =>
        match t.put? b.path b.key b.value, dropLines rest with
        | some t, ',' :: rest => membersFrom fuel nesting t rest
        | some t, '\x7d' :: rest => some (.table t.origin t.entries, rest)
        | _, _ => none
termination_by structural fuel => fuel

/--
The key and value at the start of a text; `skip` drops what may stand on both sides of the equals
sign, which is ends of lines too inside braces.
-/
def bindingFrom : (fuel nesting : Nat) → (skip : List Char → List Char) → List Char →
    Option (Binding × List Char)
  | 0, _, _, _ => none
  | fuel + 1, nesting, skip, cs =>
    match key? cs with
    | none => none
    | some (path, key, rest) =>
      match skip rest with
      | '=' :: rest =>
        (valueFrom fuel nesting (skip rest)).map fun (value, rest) => (⟨path, key, value⟩, rest)
      | _ => none
termination_by structural fuel => fuel

end

/-- What has been read of a document. -/
structure State where
  /-- The table of all tables. -/
  top : Table := ⟨.header, []⟩
  /-- The path of the last header. -/
  current : List String := []

/-- Reads the key and value at the start of a text into the table of the last header. -/
def bind? (s : State) (cs : List Char) : Option (State × List Char) := do
  let (b, rest) ← bindingFrom (cs.length + 1) nestingLimit dropBlanks cs
  let top ← Table.at? false (Table.put? b.path b.key b.value) s.current s.top
  return ({ s with top }, rest)

/-- Reads a header after its opening bracket. -/
def header? (s : State) : List Char → Option (State × List Char)
  | '[' :: cs => do
    let (path, key, cs) ← key? cs
    match cs with
    | ']' :: ']' :: rest => return (⟨← s.top.append? path key, path ++ [key]⟩, rest)
    | _ => none
  | cs => do
    let (path, key, cs) ← key? cs
    match cs with
    | ']' :: rest => return (⟨← s.top.start? path key, path ++ [key]⟩, rest)
    | _ => none

/-- Reads the lines of a text; `fuel` bounds their number. -/
def linesFrom : (fuel : Nat) → State → List Char → Option State
  | 0, _, _ => none
  | fuel + 1, s, cs =>
    match dropLines cs with
    | [] => some s
    | '[' :: rest => do
      let (s, rest) ← header? s rest
      linesFrom fuel s (← endOfLine? rest)
    | '#' :: rest => if (dropComment ('#' :: rest)).isEmpty then some s else none
    | cs => do
      let (s, rest) ← bind? s cs
      linesFrom fuel s (← endOfLine? rest)

/-- The entries of the document that a text spells, a byte order mark in front aside. -/
def parse? (text : String) : Option (List (String × Value)) :=
  let cs := match text.toList with
    | '\ufeff' :: cs => cs
    | cs => cs
  (linesFrom (cs.length + 1) {} cs).map fun s => s.top.entries

end Solscope.Toml.Document
