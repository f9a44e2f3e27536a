import Solscope.Json.Parser
import Solscope.Toml.Basic

/-!
# The leaves of TOML text

Blanks, comments, ends of lines, strings and keys. Every function takes the rest of a text and gives
what it found together with what follows; it gives nothing where the text is malformed.
-/

namespace Solscope.Toml.Scanner

/-- Blanks inside a line. -/
def isBlank (c : Char) : Bool := c = ' ' || c = '\t'

/-- The characters that may stand for themselves in comments and strings. -/
def isPlain (c : Char) : Bool := c = '\t' || (0x20 ≤ c.toNat && c.toNat != 0x7F)

/-- Drops blanks. -/
def dropBlanks (cs : List Char) : List Char := cs.dropWhile isBlank

/-- What follows the end of the line at the start of a text. -/
def newline? : List Char → Option (List Char)
  | '\n' :: cs => some cs
  | '\r' :: '\n' :: cs => some cs
  | _ => none

/-- Drops the comment at the start of a text, if there is one. -/
def dropComment : List Char → List Char
  | '#' :: cs => cs.dropWhile isPlain
  | cs => cs

/-- What follows the rest of a line without anything but blanks and a comment. -/
def endOfLine? (cs : List Char) : Option (List Char) :=
  match dropComment (dropBlanks cs) with
  | [] => some []
  | cs => newline? cs

/-- Drops blanks, comments and ends of lines; `fuel` bounds the lines. -/
def dropLinesFrom : (fuel : Nat) → List Char → List Char
  | 0, cs => cs
  | fuel + 1, cs =>
    let cs := dropBlanks cs
    match newline? (dropComment cs) with
    | some rest => dropLinesFrom fuel rest
    | none => cs

/-- Drops blanks, comments and ends of lines. -/
def dropLines (cs : List Char) : List Char := dropLinesFrom (cs.length + 1) cs

/-! ## Strings -/

/-- The character that digits in base 16 number. -/
def numbered? (digits : List Char) : Option Char := do
  let values ← digits.mapM Json.hexValue?
  let n := values.foldl (fun acc d => acc * 16 + d) 0
  if n < 0xD800 ∨ 0xE000 ≤ n ∧ n < 0x110000 then some (Char.ofNat n) else none

/-- The character that a letter after a backslash stands for. -/
def escaped? : Char → Option Char
  | '"' => some '"'
  | '\\' => some '\\'
  | 'b' => some (Char.ofNat 8)
  | 't' => some '\t'
  | 'n' => some '\n'
  | 'f' => some (Char.ofNat 12)
  | 'r' => some '\r'
  | 'e' => some (Char.ofNat 27)
  | _ => none

/-- The character that exactly `count` digits in base 16 number, and what follows them. -/
def numberedBy? (count : Nat) (cs : List Char) : Option (Char × List Char) :=
  if count ≤ cs.length then (numbered? (cs.take count)).map fun c => (c, cs.drop count) else none

/-- The character that a backslash introduces, and what follows it. -/
def escape? : List Char → Option (Char × List Char)
  | 'x' :: cs => numberedBy? 2 cs
  | 'u' :: cs => numberedBy? 4 cs
  | 'U' :: cs => numberedBy? 8 cs
  | c :: cs => (escaped? c).map fun d => (d, cs)
  | [] => none

/-- The rest of a string of one line with escapes, after the characters `acc` in reverse. -/
def basicFrom : (fuel : Nat) → (acc : List Char) → List Char → Option (String × List Char)
  | _, acc, '"' :: cs => some (String.ofList acc.reverse, cs)
  | fuel + 1, acc, '\\' :: cs => do
    let (c, cs) ← escape? cs
    basicFrom fuel (c :: acc) cs
  | fuel + 1, acc, c :: cs => if isPlain c then basicFrom fuel (c :: acc) cs else none
  | _, _, _ => none

/-- The rest of a string of one line without escapes. -/
def literal? (cs : List Char) : Option (String × List Char) :=
  let isInner (c : Char) : Bool := isPlain c && c != '\''
  match cs.dropWhile isInner with
  | '\'' :: rest => some (String.ofList (cs.takeWhile isInner), rest)
  | _ => none

/-- The end of a string of several lines: three quotes, of which up to two more belong to it. -/
def closing? (quote : Char) (cs : List Char) : Option (List Char × List Char) :=
  let quotes := (cs.take 5).takeWhile (· = quote)
  if 3 ≤ quotes.length then some (quotes.drop 3, cs.drop quotes.length) else none

/--
What follows a backslash that ends its line: the next character that is no blank and ends none.
-/
def continued? (fuel : Nat) (cs : List Char) : Option (List Char) :=
  (newline? (dropBlanks cs)).map fun rest => drop fuel rest
where
  /-- Drops blanks and ends of lines. -/
  drop : Nat → List Char → List Char
    | 0, cs => cs
    | fuel + 1, cs =>
      match newline? (dropBlanks cs) with
      | some rest => drop fuel rest
      | none => dropBlanks cs

/-- The rest of a string of several lines; a backslash means something if `hasEscapes`. -/
def linesFrom (quote : Char) (hasEscapes : Bool) :
    (fuel : Nat) → (acc : List Char) → List Char → Option (String × List Char)
  | 0, _, _ => none
  | fuel + 1, acc, cs =>
    match closing? quote cs, newline? cs, cs with
    | some (quotes, rest), _, _ => some (String.ofList (acc.reverse ++ quotes), rest)
    | none, some rest, _ => linesFrom quote hasEscapes fuel ('\n' :: acc) rest
    | none, none, '\\' :: rest =>
      if hasEscapes then
        match continued? fuel rest with
        | some rest => linesFrom quote hasEscapes fuel acc rest
        | none => do
          let (c, rest) ← escape? rest
          linesFrom quote hasEscapes fuel (c :: acc) rest
      else linesFrom quote hasEscapes fuel ('\\' :: acc) rest
    | none, none, c :: rest =>
      if isPlain c then linesFrom quote hasEscapes fuel (c :: acc) rest else none
    | none, none, [] => none

/-- A string of several lines, without the end of line right after the opening quotes. -/
def lines? (quote : Char) (hasEscapes : Bool) (cs : List Char) : Option (String × List Char) :=
  linesFrom quote hasEscapes (cs.length + 1) [] ((newline? cs).getD cs)

/-- The string at the start of a text. -/
def string? : List Char → Option (String × List Char)
  | '"' :: '"' :: '"' :: cs => lines? '"' true cs
  | '\'' :: '\'' :: '\'' :: cs => lines? '\'' false cs
  | '"' :: cs => basicFrom (cs.length + 1) [] cs
  | '\'' :: cs => literal? cs
  | _ => none

/-! ## Keys -/

/-- The characters of keys without quotes. -/
def isBare (c : Char) : Bool := c.isAlphanum || c = '_' || c = '-'

/-- One part of a key. -/
def keyPart? : List Char → Option (String × List Char)
  | '"' :: cs => basicFrom (cs.length + 1) [] cs
  | '\'' :: cs => literal? cs
  | cs =>
    if (cs.takeWhile isBare).isEmpty then none
    else some (String.ofList (cs.takeWhile isBare), cs.dropWhile isBare)

/-- The parts of a key and what follows it; `fuel` bounds the parts. -/
def keyFrom : (fuel : Nat) → List Char → Option (List String × List Char)
  | 0, _ => none
  | fuel + 1, cs => do
    let (part, cs) ← keyPart? (dropBlanks cs)
    match dropBlanks cs with
    | '.' :: cs =>
      let (parts, cs) ← keyFrom fuel cs
      return (part :: parts, cs)
    | cs => return ([part], cs)

/-- The most parts that a key may have. -/
def mostParts : Nat := 80

/-- The parts of a key before its last one, the last one, and what follows. -/
def key? (cs : List Char) : Option (List String × String × List Char) := do
  let (parts, cs) ← keyFrom (cs.length + 1) cs
  if parts.length ≤ mostParts then return (parts.dropLast, ← parts.getLast?, cs) else none

end Solscope.Toml.Scanner
