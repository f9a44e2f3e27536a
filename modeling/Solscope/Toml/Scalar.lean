import Solscope.Json.Parser
import Solscope.Text.Cut

/-!
# TOML numbers, dates and times

Every function here judges a whole word, that is, text without blanks, brackets or commas.

* `Scalar.integer?`: integers of up to 128 bits, in four bases.
* `Scalar.isFloat`: floats that are not too large.
* `Scalar.isMoment`: dates, times and both.
-/

namespace Solscope.Toml.Scalar

/-! ## Numbers -/

/-- The digits of a number in which single underscores may stand between digits. -/
def digits? (isDigit : Char → Bool) : List Char → Option (List Char)
  | [] => none
  | [c] => if isDigit c then some [c] else none
  | c :: '_' :: rest => if isDigit c then (digits? isDigit rest).map (c :: ·) else none
  | c :: rest => if isDigit c then (digits? isDigit rest).map (c :: ·) else none

/-- The number that digits spell in a base. -/
def value (base : Nat) (digits : List Char) : Nat :=
  digits.foldl (fun acc c => acc * base + (Json.hexValue? c).getD 0) 0

/-- A number in a base that is a power of 2. -/
def based? (base : Nat) (cs : List Char) : Option Nat :=
  (digits? (fun c => (Json.hexValue? c).any (· < base)) cs).map (value base)

/-- The digits of a decimal number: a lone zero, or digits that do not start with one. -/
def decimalDigits? (cs : List Char) : Option (List Char) := do
  let digits ← digits? Char.isDigit cs
  match digits with
  | '0' :: _ :: _ => none
  | digits => some digits

/-- An optional sign, and what follows it. -/
def sign : List Char → Int × List Char
  | '-' :: cs => (-1, cs)
  | '+' :: cs => (1, cs)
  | cs => (1, cs)

/-- The integer a word spells. -/
def anyInteger? : List Char → Option Int
  | '0' :: 'x' :: cs => (based? 16 cs).map Int.ofNat
  | '0' :: 'o' :: cs => (based? 8 cs).map Int.ofNat
  | '0' :: 'b' :: cs => (based? 2 cs).map Int.ofNat
  | cs =>
    let (sign, cs) := sign cs
    (decimalDigits? cs).map fun digits => sign * value 10 digits

/-- The integer a word spells, if it has at most 128 bits. -/
def integer? (cs : List Char) : Option Int := do
  let n ← anyInteger? cs
  let fits : Bool := match n with
    | .ofNat m => m < Nat.pow 2 128
    | .negSucc m => m < Nat.pow 2 127
  if fits then some n else none

/-- Whole part, digits of the fraction and exponent of a float. -/
structure FloatParts where
  whole : List Char
  fraction : List Char
  exponent : Int

/-- The exponent at the start of a text, which must be all of it. -/
def exponent? : List Char → Option Int
  | [] => some 0
  | _ :: cs =>
    let (sign, cs) := sign cs
    (digits? Char.isDigit cs).map fun digits => sign * value 10 digits

/-- Whether a character introduces an exponent. -/
def isMark (c : Char) : Bool := c = 'e' || c = 'E'

/-- The parts of a float without its sign: a fraction, an exponent or both follow the whole part. -/
def floatParts? (cs : List Char) : Option FloatParts := do
  let isWhole (c : Char) : Bool := !isMark c && c != '.'
  let whole ← decimalDigits? (cs.takeWhile isWhole)
  match cs.dropWhile isWhole with
  | [] => none
  | '.' :: rest =>
    let fraction ← digits? Char.isDigit (rest.takeWhile fun c => !isMark c)
    return ⟨whole, fraction, ← exponent? (rest.dropWhile fun c => !isMark c)⟩
  | rest => return ⟨whole, [], ← exponent? rest⟩

/-- The least number that is too large for every float of 64 bits. -/
def tooLarge : Nat := Nat.pow 2 1024 - Nat.pow 2 970

/-- Whether a float of 64 bits is nearest to the number, and not infinity. -/
def FloatParts.isFinite (p : FloatParts) : Bool :=
  let digits := (p.whole ++ p.fraction).dropWhile (· = '0')
  let scale := p.exponent - p.fraction.length
  let magnitude := scale + digits.length
  if digits.isEmpty ∨ magnitude < 309 then true
  else if 309 < magnitude then false
  else if 0 ≤ scale then value 10 digits * Nat.pow 10 scale.toNat < tooLarge
  else value 10 digits < tooLarge * Nat.pow 10 (-scale).toNat

/-- Whether a word spells a float. -/
def isFloat (cs : List Char) : Bool :=
  match (sign cs).2 with
  | ['i', 'n', 'f'] | ['n', 'a', 'n'] => true
  | cs => (floatParts? cs).any FloatParts.isFinite

/-! ## Dates and times -/

/-- The number of exactly `count` digits at the start of a text, and what follows it. -/
def fixed? (count : Nat) (cs : List Char) : Option (Nat × List Char) :=
  let digits := cs.take count
  if digits.length = count ∧ digits.all Char.isDigit then
    some (value 10 digits, cs.drop count)
  else none

/-- What follows a given character at the start of a text. -/
def after? (c : Char) (cs : List Char) : Option (List Char) := Text.after? [c] cs

/-- The days of a month. -/
def daysIn (year month : Nat) : Nat :=
  if month = 2 then
    if year % 4 = 0 ∧ (year % 100 ≠ 0 ∨ year % 400 = 0) then 29 else 28
  else if month ∈ [4, 6, 9, 11] then 30
  else 31

/-- What follows a date at the start of a text. -/
def date? (cs : List Char) : Option (List Char) := do
  let (year, cs) ← fixed? 4 cs
  let (month, cs) ← fixed? 2 (← after? '-' cs)
  let (day, cs) ← fixed? 2 (← after? '-' cs)
  if 1 ≤ month ∧ month ≤ 12 ∧ 1 ≤ day ∧ day ≤ daysIn year month then some cs else none

/-- What follows the fraction of a second at the start of a text, if there is one. -/
def fraction? : List Char → Option (List Char)
  | '.' :: cs =>
    if (cs.takeWhile Char.isDigit).isEmpty then none else some (cs.dropWhile Char.isDigit)
  | cs => some cs

/-- What follows the seconds at the start of a text, if there are any. -/
def seconds? : List Char → Option (List Char)
  | ':' :: cs => do
    let (second, cs) ← fixed? 2 cs
    if second ≤ 60 then fraction? cs else none
  | cs => some cs

/-- What follows hours and minutes at the start of a text. -/
def minutes? (cs : List Char) : Option (List Char) := do
  let (hour, cs) ← fixed? 2 cs
  let (minute, cs) ← fixed? 2 (← after? ':' cs)
  if hour ≤ 23 ∧ minute ≤ 59 then some cs else none

/-- What follows a time at the start of a text. -/
def time? (cs : List Char) : Option (List Char) := do seconds? (← minutes? cs)

/-- Whether a text is the distance of a time zone from the universal time, or nothing. -/
def isZone : List Char → Bool
  | [] | ['Z'] | ['z'] => true
  | '+' :: cs | '-' :: cs => minutes? cs = some []
  | _ => false

/-- Whether a text is a date. -/
def isDate (cs : List Char) : Bool := date? cs = some []

/-- Whether a text is a date, a time, or a date and a time with a mark between. -/
def isMoment (cs : List Char) : Bool :=
  time? cs = some [] ||
    match date? cs with
    | none => false
    | some [] => true
    | some (mark :: rest) => mark ∈ ['T', 't', ' '] && (time? rest).any isZone

end Solscope.Toml.Scalar
