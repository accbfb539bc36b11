/-
Reading JSON. The reader stops at the first character that does not fit and says what it expected
there. Besides the standard it accepts `NaN`, `Infinity` and `-Infinity`. Of two fields with one
name the later value is kept at the earlier place.

A scanner gives its result together with the characters that remain; a problem is reported with the
characters that remain at it, which fixes its position.

Arrays and objects may be nested to any depth. A host may limit how deep its calls are nested, and so
refuse a text that is read here; that limit is its own and no part of the format, and is left out.
-/
import PlaceMap.Json

namespace PlaceMap.Json

/-- What does not fit. -/
inductive Problem where
  | expectingValue
  | expectingName
  | expectingColon
  | expectingComma
  | unterminatedString
  | controlCharacter
  | invalidEscape
  | invalidUnicodeEscape
  | extraData
  | byteOrderMark
  | tooManyDigits (count : Nat)
  deriving DecidableEq, Repr

/-- The words for a problem. -/
def Problem.text : Problem → String
  | .expectingValue => "Expecting value"
  | .expectingName => "Expecting property name enclosed in double quotes"
  | .expectingColon => "Expecting ':' delimiter"
  | .expectingComma => "Expecting ',' delimiter"
  | .unterminatedString => "Unterminated string starting at"
  | .controlCharacter => "Invalid control character at"
  | .invalidEscape => "Invalid \\escape"
  | .invalidUnicodeEscape => "Invalid \\uXXXX escape"
  | .extraData => "Extra data"
  | .byteOrderMark => "Unexpected UTF-8 BOM (decode using utf-8-sig)"
  | .tooManyDigits count =>
    s!"Exceeds the limit (4300 digits) for integer string conversion: value has {count} digits; " ++
      "use sys.set_int_max_str_digits() to increase the limit"

/-- A problem and where it stands: the number of characters before it, its line and its column. -/
structure Fault where
  problem : Problem
  offset : Nat
  line : Nat
  column : Nat
  deriving DecidableEq, Repr

/-- The text of a fault. -/
def Fault.message (f : Fault) : String :=
  f.problem.text ++ s!": line {f.line} column {f.column} (char {f.offset})"

/-- The number of digits of an integer that is too long to be read. Nothing is known of the text behind
it. -/
def Fault.oversized? (f : Fault) : Option Nat :=
  match f.problem with
  | .tooManyDigits count => some count
  | _ => none

/-- The fault for a problem after the given characters. Lines and columns count from one. -/
def Fault.after (problem : Problem) (before : List Char) : Fault :=
  let lastLine := before.reverse.takeWhile (· ≠ '\n')
  ⟨problem, before.length, before.count '\n' + 1, lastLine.length + 1⟩

namespace Reader

/-- A problem with the characters that remain at it. -/
abbrev Halt := Problem × List Char

/-- The blanks between tokens. -/
def isBlank (c : Char) : Bool := c = ' ' || c = '\t' || c = '\n' || c = '\r'

/-- Drops blanks. -/
def skipBlanks (cs : List Char) : List Char := cs.dropWhile isBlank

/-- The value of a hexadecimal digit. -/
def hexValue (c : Char) : Option Nat :=
  let n := c.toNat
  if 48 ≤ n ∧ n ≤ 57 then some (n - 48)
  else if 97 ≤ n ∧ n ≤ 102 then some (n - 87)
  else if 65 ≤ n ∧ n ≤ 70 then some (n - 55)
  else none

/-- The value of four hexadecimal digits. -/
def hexCode (a b c d : Char) : Option Nat := do
  let a ← hexValue a
  let b ← hexValue b
  let c ← hexValue c
  let d ← hexValue d
  return ((a * 16 + b) * 16 + c) * 16 + d

/-- The character that follows a backslash, as the character it stands for. -/
def simpleEscape : Char → Option Char
  | '"' => some '"'
  | '\\' => some '\\'
  | '/' => some '/'
  | 'b' => some '\x08'
  | 'f' => some '\x0c'
  | 'n' => some '\n'
  | 'r' => some '\r'
  | 't' => some '\t'
  | _ => none

/-- The first half of a surrogate pair. -/
def isHighSurrogate (n : Nat) : Bool := 0xD800 ≤ n && n ≤ 0xDBFF

/-- The second half of a surrogate pair. -/
def isLowSurrogate (n : Nat) : Bool := 0xDC00 ≤ n && n ≤ 0xDFFF

/-- The code point of a surrogate pair. -/
def joinSurrogates (high low : Nat) : Nat := 0x10000 + (high - 0xD800) * 0x400 + (low - 0xDC00)

/-- The characters of a list of code points, in which a surrogate pair stands for one character. A
lone surrogate is replaced. -/
def characters : List Nat → List Char
  | [] => []
  | [n] => [if isHighSurrogate n || isLowSurrogate n then '\uFFFD' else Char.ofNat n]
  | n :: m :: rest =>
    if isHighSurrogate n && isLowSurrogate m then
      Char.ofNat (joinSurrogates n m) :: characters rest
    else
      (if isHighSurrogate n || isLowSurrogate n then '\uFFFD' else Char.ofNat n) ::
        characters (m :: rest)

/-- Puts a code point in front of scanned ones. -/
def push (n : Nat) : Except Halt (List Nat × List Char) → Except Halt (List Nat × List Char) :=
  Except.map fun (text, rest) => (n :: text, rest)

/-- The code points of a string up to its closing quote; `opening` is the text from its opening
quote on. Four hexadecimal digits count only if a character follows them. -/
def codePoints (opening : List Char) : List Char → Except Halt (List Nat × List Char)
  | [] => .error (.unterminatedString, opening)
  | '"' :: rest => .ok ([], rest)
  | '\\' :: [] => .error (.unterminatedString, opening)
  | '\\' :: 'u' :: a :: b :: c :: d :: rest =>
    match hexCode a b c d, rest.isEmpty with
    | some code, false => push code (codePoints opening rest)
    | _, _ => .error (.invalidUnicodeEscape, 'u' :: a :: b :: c :: d :: rest)
  | '\\' :: 'u' :: rest => .error (.invalidUnicodeEscape, 'u' :: rest)
  | '\\' :: c :: rest =>
    match simpleEscape c with
    | some c => push c.toNat (codePoints opening rest)
    | none => .error (.invalidEscape, '\\' :: c :: rest)
  | c :: rest =>
    if c.toNat ≤ 0x1F then .error (.controlCharacter, c :: rest)
    else push c.toNat (codePoints opening rest)

/-- The text of a string from its opening quote on. -/
def string (opening rest : List Char) : Except Halt (String × List Char) :=
  (codePoints opening rest).map fun (found, rest) => (String.ofList (characters found), rest)

/-- The leading decimal digits and what follows them. -/
def spanDigits (cs : List Char) : List Char × List Char := cs.span Char.isDigit

/-- The number that decimal digits spell. -/
def digitsValue (ds : List Char) : Nat := ds.foldl (fun n d => n * 10 + (d.toNat - 48)) 0

/-- The digits after a point, if the point is followed by one. -/
def fraction : List Char → List Char × List Char
  | '.' :: rest =>
    match spanDigits rest with
    | ([], _) => ([], '.' :: rest)
    | found => found
  | cs => ([], cs)

/-- An exponent, if it has a digit; otherwise nothing is read. -/
def exponent (cs : List Char) : Option Int × List Char :=
  match cs with
  | c :: rest =>
    if c = 'e' ∨ c = 'E' then
      let (negative, digits) :=
        match rest with
        | '-' :: rest => (true, rest)
        | '+' :: rest => (false, rest)
        | rest => (false, rest)
      match spanDigits digits with
      | ([], _) => (none, cs)
      | (ds, rest) => (some (if negative then -digitsValue ds else digitsValue ds), rest)
    else (none, cs)
  | [] => (none, cs)

/-- The digits before the point: a zero stands alone. -/
def whole : List Char → Option (List Char × List Char)
  | '0' :: rest => some (['0'], rest)
  | cs =>
    match spanDigits cs with
    | ([], _) => none
    | found => some found

/-- The greatest number of digits of an integer. -/
def maxDigits : Nat := 4300

/-- A number; `start` is the text from its first character on. -/
def number (start : List Char) : Except Halt (Json × List Char) :=
  let (negative, cs) :=
    match start with
    | '-' :: rest => (true, rest)
    | cs => (false, cs)
  match whole cs with
  | none => .error (.expectingValue, start)
  | some (ds, rest) =>
    let (decimals, rest) := fraction rest
    match exponent rest, decimals with
    | (none, rest), [] =>
      if maxDigits < ds.length then .error (.tooManyDigits ds.length, start)
      else .ok (.int (if negative then -digitsValue ds else digitsValue ds), rest)
    | (e, rest), _ =>
      let scale : Int := e.getD 0 - decimals.length
      .ok (.real (Number.ofDecimal negative (digitsValue (ds ++ decimals)) scale), rest)

/-- A value that starts with neither a quote nor a bracket. -/
def atom : List Char → Except Halt (Json × List Char)
  | 'n' :: 'u' :: 'l' :: 'l' :: rest => .ok (.null, rest)
  | 't' :: 'r' :: 'u' :: 'e' :: rest => .ok (.bool true, rest)
  | 'f' :: 'a' :: 'l' :: 's' :: 'e' :: rest => .ok (.bool false, rest)
  | 'N' :: 'a' :: 'N' :: rest => .ok (.real .nan, rest)
  | 'I' :: 'n' :: 'f' :: 'i' :: 'n' :: 'i' :: 't' :: 'y' :: rest =>
    .ok (.real (.infinite false), rest)
  | '-' :: 'I' :: 'n' :: 'f' :: 'i' :: 'n' :: 'i' :: 't' :: 'y' :: rest =>
    .ok (.real (.infinite true), rest)
  | cs => number cs

mutual

/-- A value. Of two calls, one inside the other, at least one takes a character first, so twice as
much fuel as there are characters is enough. -/
def value : Nat → List Char → Except Halt (Json × List Char)
  | 0, cs => .error (.expectingValue, cs)
  | fuel + 1, cs =>
    match cs with
    | '"' :: rest => (string cs rest).map fun (text, rest) => (.str text, rest)
    | '{' :: rest =>
      match skipBlanks rest with
      | '}' :: rest => .ok (.obj [], rest)
      | rest => (fields fuel [] rest).map fun (found, rest) => (.obj found, rest)
    | '[' :: rest =>
      match skipBlanks rest with
      | ']' :: rest => .ok (.arr [], rest)
      | rest => (items fuel [] rest).map fun (found, rest) => (.arr found.reverse, rest)
    | _ => atom cs

/-- The fields of an object from a field's name on, after the fields already read. -/
def fields : Nat → Fields → List Char → Except Halt (Fields × List Char)
  | 0, _, cs => .error (.expectingName, cs)
  | fuel + 1, found, cs =>
    match cs with
    | '"' :: rest => do
      let (name, rest) ← string cs rest
      match skipBlanks rest with
      | ':' :: rest => do
        let (v, rest) ← value fuel (skipBlanks rest)
        let found := found.insert name v
        match skipBlanks rest with
        | '}' :: rest => .ok (found, rest)
        | ',' :: rest => fields fuel found (skipBlanks rest)
        | rest => .error (.expectingComma, rest)
      | rest => .error (.expectingColon, rest)
    | _ => .error (.expectingName, cs)

/-- The items of an array from an item on, in reverse, after the items already read. -/
def items : Nat → List Json → List Char → Except Halt (List Json × List Char)
  | 0, _, cs => .error (.expectingValue, cs)
  | fuel + 1, found, cs => do
    let (v, rest) ← value fuel cs
    match skipBlanks rest with
    | ']' :: rest => .ok (v :: found, rest)
    | ',' :: rest => items fuel (v :: found) (skipBlanks rest)
    | rest => .error (.expectingComma, rest)

end

/-- A whole text: one value, with blanks before and after it. -/
def document (cs : List Char) : Except Halt Json :=
  match cs with
  | '\uFEFF' :: _ => .error (.byteOrderMark, cs)
  | _ => do
    let (v, rest) ← value (2 * cs.length + 2) (skipBlanks cs)
    match skipBlanks rest with
    | [] => .ok v
    | rest => .error (.extraData, rest)

end Reader

/-- Reads a text as one JSON value. -/
def read (text : String) : Except Fault Json :=
  let cs := text.toList
  match Reader.document cs with
  | .ok v => .ok v
  | .error (problem, rest) => .error (Fault.after problem (cs.take (cs.length - rest.length)))

end PlaceMap.Json
