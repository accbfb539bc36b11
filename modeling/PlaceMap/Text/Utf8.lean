/-
Strict decoding of UTF-8. A fault names the octets that form no character and why: no character
starts with the octet, the octet after it does not continue it, or the text ends inside it.
-/
namespace PlaceMap.Text.Utf8

/-- Why some octets form no character. -/
inductive Reason where
  | invalidStart
  | invalidContinuation
  | unexpectedEnd
  deriving DecidableEq, Repr

/-- The words for a reason. -/
def Reason.text : Reason → String
  | .invalidStart => "invalid start byte"
  | .invalidContinuation => "invalid continuation byte"
  | .unexpectedEnd => "unexpected end of data"

/-- The first undecodable stretch of a text: its position, its first octet and its length. -/
structure Fault where
  start : Nat
  octet : Nat
  length : Nat
  reason : Reason
  deriving DecidableEq, Repr

/-- A number below 16 as a digit. -/
def hexDigit (n : Nat) : Char :=
  if n < 10 then Char.ofNat (48 + n) else Char.ofNat (87 + n)

/-- An octet as two digits. -/
def hexOctet (n : Nat) : String := String.ofList [hexDigit (n / 16), hexDigit (n % 16)]

/-- The text of a fault. One octet is shown, several are given by their positions. -/
def Fault.message (f : Fault) : String :=
  let place :=
    if f.length = 1 then s!"byte 0x{hexOctet f.octet} in position {f.start}"
    else s!"bytes in position {f.start}-{f.start + f.length - 1}"
  "'utf-8' codec can't decode " ++ place ++ ": " ++ f.reason.text

/-- The least and the greatest octet that may follow each of the octets still due, for the first
octet of a character of several octets. -/
def continuations (first : Nat) : Option (List (Nat × Nat)) :=
  let tail := (0x80, 0xBF)
  if 0xC2 ≤ first ∧ first ≤ 0xDF then some [tail]
  else if first = 0xE0 then some [(0xA0, 0xBF), tail]
  else if first = 0xED then some [(0x80, 0x9F), tail]
  else if 0xE1 ≤ first ∧ first ≤ 0xEF then some [tail, tail]
  else if first = 0xF0 then some [(0x90, 0xBF), tail, tail]
  else if 0xF1 ≤ first ∧ first ≤ 0xF3 then some [tail, tail, tail]
  else if first = 0xF4 then some [(0x80, 0x8F), tail, tail]
  else none

/-- The payload of the first octet of a character of several octets. -/
def leadBits (first : Nat) : Nat :=
  if first < 0xE0 then first - 0xC0
  else if first < 0xF0 then first - 0xE0
  else first - 0xF0

/-- Takes the octets due, gathering the payload; a failure tells how many octets were good. -/
def gather : List (Nat × Nat) → Nat → Nat → List Nat → Except (Reason × Nat) (Nat × List Nat)
  | [], _, code, rest => .ok (code, rest)
  | _ :: _, taken, _, [] => .error (.unexpectedEnd, taken)
  | (low, high) :: due, taken, code, b :: rest =>
    if low ≤ b ∧ b ≤ high then gather due (taken + 1) (code * 64 + (b - 0x80)) rest
    else .error (.invalidContinuation, taken)

/-- Decodes the octets from a position on; `fuel` bounds the number of characters. -/
def decodeFrom : Nat → Nat → List Nat → Except Fault (List Char)
  | _, _, [] => .ok []
  | 0, _, _ => .ok []
  | fuel + 1, start, b :: rest =>
    if b < 0x80 then (decodeFrom fuel (start + 1) rest).map (Char.ofNat b :: ·)
    else
      match continuations b with
      | none => .error ⟨start, b, 1, .invalidStart⟩
      | some due =>
        match gather due 1 (leadBits b) rest with
        | .error (reason, length) => .error ⟨start, b, length, reason⟩
        | .ok (code, rest) =>
          (decodeFrom fuel (start + due.length + 1) rest).map (Char.ofNat code :: ·)

/-- The text that octets encode. Every character takes at least one octet, so the number of octets
bounds the number of characters. -/
def decode (octets : List Nat) : Except Fault String :=
  (decodeFrom octets.length 0 octets).map String.ofList

/-- The octets of a text. -/
def encode (s : String) : List Nat := s.toUTF8.toList.map UInt8.toNat

end PlaceMap.Text.Utf8
