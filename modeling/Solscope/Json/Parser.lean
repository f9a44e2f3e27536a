import Solscope.Json.Basic
import Solscope.Text.Integer

/-!
# Reading JSON text

A text is one value with blanks around it; anything else yields nothing. A reader may say which
parts it wants. The others must be well-formed, but their strings need not spell text.

* `Json.stringFrom`, `Json.skipString`, `Json.number?`: the leaves.
* `Json.Wanted`: the parts that a reader wants.
* `Json.parse?`, `Json.parseWanted?`: the value of a whole text.
-/

namespace Solscope.Json

/-- The blanks that may stand between tokens. -/
def isSpace (c : Char) : Bool := c = ' ' || c = '\n' || c = '\t' || c = '\r'

/-- The value of a hexadecimal digit of either case. -/
def hexValue? (c : Char) : Option Nat :=
  if '0' ≤ c ∧ c ≤ '9' then some (c.toNat - 48)
  else if 'a' ≤ c ∧ c ≤ 'f' then some (c.toNat - 87)
  else if 'A' ≤ c ∧ c ≤ 'F' then some (c.toNat - 55)
  else none

/-- The number spelled by four hexadecimal digits. -/
def hexQuad? (a b c d : Char) : Option Nat := do
  return ((← hexValue? a) * 16 + (← hexValue? b)) * 256 + (← hexValue? c) * 16 + (← hexValue? d)

/-- The character of a one-letter escape. -/
def escaped? : Char → Option Char
  | '"' => some '"'
  | '\\' => some '\\'
  | '/' => some '/'
  | 'b' => some (Char.ofNat 8)
  | 'f' => some (Char.ofNat 12)
  | 'n' => some '\n'
  | 'r' => some '\r'
  | 't' => some '\t'
  | _ => none

/--
The rest of a string after its opening quote and the characters `acc`, kept in reverse, and what
follows its closing quote. Two escaped surrogates spell one character; a lone one is refused.
-/
def stringFrom (acc : List Char) : List Char → Option (String × List Char)
  | [] => none
  | '"' :: rest => some (String.ofList acc.reverse, rest)
  | '\\' :: 'u' :: a :: b :: c :: d :: rest =>
    match hexQuad? a b c d with
    | none => none
    | some n =>
      if n < 0xD800 ∨ 0xE000 ≤ n then stringFrom (Char.ofNat n :: acc) rest
      else if 0xDC00 ≤ n then none
      else match rest with
        | '\\' :: 'u' :: e :: f :: g :: h :: rest =>
          match hexQuad? e f g h with
          | none => none
          | some m =>
            if 0xDC00 ≤ m ∧ m < 0xE000 then
              stringFrom (Char.ofNat (0x10000 + (n - 0xD800) * 0x400 + (m - 0xDC00)) :: acc) rest
            else none
        | _ => none
  | '\\' :: c :: rest =>
    match escaped? c with
    | none => none
    | some d => stringFrom (d :: acc) rest
  | c :: rest => if c.toNat < 32 then none else stringFrom (c :: acc) rest

/-- What follows the end of a string that nobody wants; lone surrogates do no harm in it. -/
def skipString : List Char → Option (List Char)
  | [] => none
  | '"' :: rest => some rest
  | '\\' :: 'u' :: a :: b :: c :: d :: rest =>
    if (hexQuad? a b c d).isSome then skipString rest else none
  | '\\' :: c :: rest => if (escaped? c).isSome then skipString rest else none
  | c :: rest => if c.toNat < 32 then none else skipString rest

/-- The digits at the start of a text and what follows them. -/
def digits (cs : List Char) : List Char × List Char :=
  (cs.takeWhile Char.isDigit, cs.dropWhile Char.isDigit)

/-- The digits of a whole part: `0`, or digits that do not start with it. -/
def whole? (cs : List Char) : Option (List Char × List Char) :=
  match digits cs with
  | ([], _) => none
  | ('0' :: _ :: _, _) => none
  | found => some found

/-- A fraction, if a point follows. -/
def fraction? : List Char → Option (List Char × List Char)
  | '.' :: cs =>
    match digits cs with
    | ([], _) => none
    | (ds, rest) => some ('.' :: ds, rest)
  | cs => some ([], cs)

/-- An exponent, if the letter for it follows. -/
def exponent? : List Char → Option (List Char × List Char)
  | c :: cs =>
    if c = 'e' ∨ c = 'E' then
      let (sign, cs) := match cs with
        | '-' :: cs => (['-'], cs)
        | '+' :: cs => ([], cs)
        | cs => ([], cs)
      match digits cs with
      | ([], _) => none
      | (ds, rest) => some (c :: sign ++ ds, rest)
    else some ([], c :: cs)
  | [] => some ([], [])

/-- A number; its spelling is kept but for a plus sign of the exponent. -/
def number? (cs : List Char) : Option (Json × List Char) := do
  let (sign, cs) := match cs with
    | '-' :: cs => (['-'], cs)
    | cs => ([], cs)
  let (whole, cs) ← whole? cs
  let (fraction, cs) ← fraction? cs
  let (exponent, cs) ← exponent? cs
  return (.num (String.ofList (sign ++ whole ++ fraction ++ exponent)), cs)

/-! ## The parts that a reader wants -/

/-- What a reader wants of a value. -/
inductive Wanted where
  | nothing
  | everything
  /-- The same of every item or member. -/
  | each (part : Wanted)
  /-- Members by the names they may have, or the items of an array in the same order. -/
  | fields (parts : List (List String × Wanted))
deriving Inhabited

namespace Wanted

/-- What is wanted of a member. -/
def member (name : String) : Wanted → Wanted
  | .nothing => .nothing
  | .everything => .everything
  | .each part => part
  | .fields parts =>
    match parts.find? fun part => name ∈ part.1 with
    | some part => part.2
    | none => .nothing

/-- What is wanted of the item of some number. -/
def item (index : Nat) : Wanted → Wanted
  | .nothing => .nothing
  | .everything => .everything
  | .each part => part
  | .fields parts =>
    match parts[index]? with
    | some part => part.2
    | none => .nothing

end Wanted

/-- The rest of a string after its opening quote; one that nobody wants reads as empty. -/
def wantedString (wanted : Wanted) (cs : List Char) : Option (String × List Char) :=
  match wanted with
  | .nothing => (skipString cs).map fun rest => ("", rest)
  | _ => stringFrom [] cs

/-! ## Values -/

mutual

/-- The value at the start of a text and what follows it; `fuel` bounds the steps. -/
def valueFrom : (fuel : Nat) → (wanted : Wanted) → List Char → Option (Json × List Char)
  | 0, _, _ => none
  | fuel + 1, wanted, cs =>
    match cs.dropWhile isSpace with
    | 'n' :: 'u' :: 'l' :: 'l' :: rest => some (.null, rest)
    | 't' :: 'r' :: 'u' :: 'e' :: rest => some (.bool true, rest)
    | 'f' :: 'a' :: 'l' :: 's' :: 'e' :: rest => some (.bool false, rest)
    | '"' :: rest => (wantedString wanted rest).map fun (text, rest) => (.str text, rest)
    | '[' :: rest =>
      match rest.dropWhile isSpace with
      | ']' :: rest => some (.arr [], rest)
      | rest => itemsFrom fuel wanted 0 [] rest
    | '\x7b' :: rest =>
      match rest.dropWhile isSpace with
      | '\x7d' :: rest => some (.obj [], rest)
      | rest => membersFrom fuel wanted [] rest
    | rest => number? rest

/-- The rest of an array after the `index` items of `acc`, kept in reverse. -/
def itemsFrom : (fuel : Nat) → (wanted : Wanted) → (index : Nat) → (acc : List Json) →
    List Char → Option (Json × List Char)
  | 0, _, _, _, _ => none
  | fuel + 1, wanted, index, acc, cs =>
    match valueFrom fuel (wanted.item index) cs with
    | none => none
    | some (item, rest) =>
      match rest.dropWhile isSpace with
      | ',' :: rest => itemsFrom fuel wanted (index + 1) (item :: acc) rest
      | ']' :: rest => some (.arr (item :: acc).reverse, rest)
      | _ => none

/-- The rest of an object after the members `acc`, kept in reverse. -/
def membersFrom : (fuel : Nat) → (wanted : Wanted) → (acc : List (String × Json)) →
    List Char → Option (Json × List Char)
  | 0, _, _, _ => none
  | fuel + 1, wanted, acc, cs =>
    match cs.dropWhile isSpace with
    | '"' :: rest =>
      match wantedString wanted rest with
      | none => none
      | some (name, rest) =>
        match rest.dropWhile isSpace with
        | ':' :: rest =>
          match valueFrom fuel (wanted.member name) rest with
          | none => none
          | some (value, rest) =>
            match rest.dropWhile isSpace with
            | ',' :: rest => membersFrom fuel wanted ((name, value) :: acc) rest
            | '\x7d' :: rest => some (.obj ((name, value) :: acc).reverse, rest)
            | _ => none
        | _ => none
    | _ => none

end

/-- The value a text spells, with the parts that are wanted. -/
def parseWanted? (wanted : Wanted) (text : String) : Option Json :=
  let cs := text.toList
  match valueFrom (cs.length + 1) wanted cs with
  | some (value, rest) => if rest.all isSpace then some value else none
  | none => none

/-- The value a text spells. -/
def parse? (text : String) : Option Json := parseWanted? .everything text

end Solscope.Json
