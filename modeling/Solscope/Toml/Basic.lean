import Solscope.Ordered

/-!
# TOML values

Tables remember how they came to be, because that decides what a document may still add to them.

* `Toml.Table.at?`: changes the table that a path leads to.
* `Toml.Table.put?`: binds a key, dotted or not.
* `Toml.Table.start?`, `Toml.Table.append?`: what the two kinds of headers do.
-/

namespace Solscope.Toml

/-- How a table came to be. -/
inductive Origin where
  /-- It has a header of its own, or is the document. -/
  | header
  /-- It is only on the way to the table of a header. -/
  | implied
  /-- It is on the way to the last part of a dotted key. -/
  | dotted
  /-- It is written between braces. -/
  | inline
deriving DecidableEq, Repr

/-- A value. -/
inductive Value where
  | str (text : String)
  | int (n : Int)
  /-- A float as it is spelled. -/
  | float (spelling : String)
  | bool (b : Bool)
  /-- A date, a time or both, as it is spelled. -/
  | moment (spelling : String)
  | arr (items : List Value)
  /-- The tables of repeated headers, each a list of entries, the last one first. -/
  | tables (items : List (List (String × Value)))
  | table (origin : Origin) (entries : List (String × Value))
deriving Inhabited

/-- A table. -/
structure Table where
  origin : Origin
  entries : List (String × Value) := []

namespace Table

/-- Binds a key that is not bound yet. -/
def bind? (key : String) (v : Value) (t : Table) : Option Table :=
  match Ordered.find? key t.entries with
  | some _ => none
  | none => some { t with entries := Ordered.insert key v t.entries }

/-- Binds a key to a value, in place of what it was bound to. -/
def rebind (key : String) (v : Value) (t : Table) : Table :=
  { t with entries := Ordered.insert key v t.entries }

/--
Whether a path may lead through a table: never through braces, and as part of a dotted key only
through tables without a header.
-/
def isOpen (isDotted : Bool) : Origin → Bool
  | .inline => false
  | .header => !isDotted
  | .implied | .dotted => true

/--
Changes the table that a path leads to by `change`. Tables that are missing on the way are made, and
of the tables of repeated headers the last one is meant.
-/
def at? (isDotted : Bool) (change : Table → Option Table) : List String → Table → Option Table
  | [], t => change t
  | key :: path, t =>
    match Ordered.find? key t.entries with
    | none => do
      let made ← at? isDotted change path ⟨if isDotted then .dotted else .implied, []⟩
      return t.rebind key (.table made.origin made.entries)
    | some (.table origin entries) =>
      if isOpen isDotted origin then do
        let changed ← at? isDotted change path ⟨origin, entries⟩
        return t.rebind key (.table changed.origin changed.entries)
      else none
    | some (.tables (entries :: before)) => do
      let changed ← at? isDotted change path ⟨.header, entries⟩
      return t.rebind key (.tables (changed.entries :: before))
    | some _ => none

/--
Binds the last part of a key whose other parts are `path`. A dotted key adds only to tables that
dotted keys have made.
-/
def put? (path : List String) (key : String) (v : Value) (t : Table) : Option Table :=
  at? true (fun t =>
    if (t.origin = .dotted) = (path = []) then none else t.bind? key v) path t

/-- Opens the table of a header, which must be new or only implied before. -/
def start? (path : List String) (key : String) (t : Table) : Option Table :=
  at? false (fun t =>
    match Ordered.find? key t.entries with
    | none => some (t.rebind key (.table .header []))
    | some (.table .implied entries) => some (t.rebind key (.table .header entries))
    | some _ => none) path t

/-- Adds a table for a repeated header. -/
def append? (path : List String) (key : String) (t : Table) : Option Table :=
  at? false (fun t =>
    match Ordered.find? key t.entries with
    | none => some (t.rebind key (.tables [[]]))
    | some (.tables items) => some (t.rebind key (.tables ([] :: items)))
    | some _ => none) path t

end Table

end Solscope.Toml
