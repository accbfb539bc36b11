/-
Reading booleans and integers from values that spell them: numbers and texts besides the values of
the type itself.
-/
import PlaceMap.Schema
import PlaceMap.Text.Blank
import PlaceMap.Text.Split

namespace PlaceMap.Schema

/-- A capital letter of the ASCII alphabet as a small one. -/
def lower (c : Char) : Char :=
  if 'A' ≤ c ∧ c ≤ 'Z' then Char.ofNat (c.toNat + 32) else c

/-- The texts that spell a truth value; capitals do not matter. -/
def boolean? (s : String) : Option Bool :=
  let word := String.ofList (s.toList.map lower)
  if word ∈ ["0", "off", "f", "false", "n", "no"] then some false
  else if word ∈ ["1", "on", "t", "true", "y", "yes"] then some true
  else none

/-- Zero and one as truth values. -/
def ofBit (i : Int) : Option Bool :=
  if i = 0 then some false else if i = 1 then some true else none

/-- Whether an integer fits into 64 bits with a sign. -/
def isWord (i : Int) : Bool := -(Int.pow 2 63) ≤ i && i < Int.pow 2 63

/-- The integer that a whole number stands for. The bounds of 64 bits are both excluded, as neither
is told apart from the numbers beyond it. -/
def wholeWord? (i : Int) : Option Int := if -(Int.pow 2 63) < i ∧ i < Int.pow 2 63 then some i else none

/-- Accepts truth values and what spells them: the numbers 0 and 1, and some words. Another text or
whole number of 64 bits is unclear, everything else is of the wrong type. -/
def boolean (v : Json) : Checked Bool :=
  let spelled (b : Option Bool) : Checked Bool :=
    match b with
    | some b => .ok b
    | none => .refuse .unclearBoolean v
  match v with
  | .bool b => .ok b
  | .str s => spelled (boolean? s)
  | .int i => if isWord i then spelled (ofBit i) else .refuse .notBoolean v
  | .real x =>
    match x.toInt?.bind wholeWord? with
    | some i => spelled (ofBit i)
    | none => .refuse .notBoolean v
  | _ => .refuse .notBoolean v

/-- The greatest number of digits of an integer. -/
def maxDigits : Nat := 4300

/-- A minus sign in front of a text, and the text without it. -/
def minus : List Char → Bool × List Char
  | '-' :: rest => (true, rest)
  | cs => (false, cs)

/-- Whether a text begins with too many digits, the first of which is not zero. -/
def isOversized (cs : List Char) : Bool :=
  let ds := (minus cs).2.takeWhile Char.isDigit
  ds.head? ≠ some '0' && maxDigits < ds.length

/-- Reads an integer in its plain form: its digits, with no zero in front of others, and a minus
sign before them if it is negative. -/
def plainInteger? (cs : List Char) : Option Int :=
  let (negative, ds) := minus cs
  if ds = [] ∨ !ds.all Char.isDigit ∨ (ds.head? = some '0' ∧ 1 < ds.length) ∨
      maxDigits < ds.length then none
  else
    let n : Int := ds.foldl (fun n d => n * 10 + (d.toNat - 48)) 0
    some (if negative then -n else n)

/-- Drops zeros, and underscores among them, behind the character `before`. Another digit or a
minus sign ends them. Before a point or the end, the last of them stays. -/
def dropZeros (before : Char) : List Char → Option (List Char)
  | [] => some [before]
  | c :: rest =>
    if c = '0' ∨ c = '_' then dropZeros c rest
    else if c.isDigit ∨ c = '-' then some (c :: rest)
    else if c = '.' then some (before :: c :: rest)
    else none

/-- A text from the first digit that counts on; none unless it begins with a digit. -/
def significant : List Char → Option (List Char)
  | [] => none
  | c :: rest =>
    if c = '0' then dropZeros c rest else if c.isDigit then some (c :: rest) else none

/-- Drops a fraction of one or more zeros. -/
def dropFraction (cs : List Char) : List Char :=
  let whole := cs.takeWhile (· ≠ '.')
  match cs.drop whole.length with
  | '.' :: '0' :: zeros => if zeros.all (· = '0') then whole else cs
  | _ => cs

/-- Drops underscores, if each of them stands alone between other characters. -/
def ungroup (cs : List Char) : List Char :=
  let groups := Text.split '_' cs
  if groups.all fun group => !group.isEmpty then groups.flatten else cs

/-- The plain form of an integer that is written more freely: with white space around it, a plus
sign, zeros in front of the digits or of a minus sign, a fraction of zeros, or underscores between
digits. -/
def tidy (cs : List Char) : Option (List Char) :=
  let cs := Text.trim Text.isSpace cs
  let finish (cs : List Char) : Option (List Char) :=
    (significant cs).map fun cs => ungroup (dropFraction cs)
  match cs with
  | '+' :: rest => finish rest
  | '-' :: rest => (finish rest).map ('-' :: ·)
  | cs => finish cs

/-- Accepts integers and what spells them: truth values, whole numbers and texts. -/
def integer (v : Json) : Checked Int :=
  match v with
  | .int i => .ok i
  | .bool b => .ok (if b then 1 else 0)
  | .real .nan => .refuse .notFinite v
  | .real (.infinite _) => .refuse .notFinite v
  | .real x =>
    match x.toInt? with
    | none => .refuse .fractional v
    | some i =>
      match wholeWord? i with
      | some i => .ok i
      | none => .refuse .integerTooLarge v
  | .str s =>
    if isOversized s.toList then .refuse .integerTooLarge v
    else
      match (tidy s.toList).bind plainInteger? with
      | some i => .ok i
      | none => .refuse .unclearInteger v
  | _ => .refuse .notInteger v

end PlaceMap.Schema
