/-
One segment of a glob, the text between two slashes: `*` and `?` match within a segment, a
backslash makes the next character ordinary, and brackets hold a set of characters. A bracket that
is not closed is an ordinary character.
-/
import PlaceMap.Glob.Pattern

namespace PlaceMap.Glob

/-- Why a segment has no pattern. -/
inductive SegmentFault where
  /-- A backslash stands at the end. -/
  | danglingEscape
  /-- A range runs from a greater to a lesser character. -/
  | reversedRange
  deriving DecidableEq, Repr

/-- One part of a segment. -/
inductive Token where
  | anything
  | anyOne
  | literal (c : Char)
  | set (negated : Bool) (members : List Char)
  deriving DecidableEq, Repr

namespace Token

/-- Cuts a text behind the first closing bracket that does not stand at its start. -/
def cutSet : List Char → Option (List Char × List Char)
  | [] => none
  | c :: rest =>
    let inner := rest.takeWhile (· ≠ ']')
    match rest.drop inner.length with
    | _ :: after => some (c :: inner, after)
    | [] => none

/-- Reads a set of characters behind its opening bracket: whether it is negated, its members as
they stand, and what follows. -/
def readSet (cs : List Char) : Option (Bool × List Char × List Char) :=
  match cs with
  | c :: rest =>
    if c = '!' ∨ c = '^' then (cutSet rest).map fun (members, after) => (true, members, after)
    else (cutSet cs).map fun (members, after) => (false, members, after)
  | [] => none

/-- Splits a segment into tokens. `fuel` bounds their number. -/
def scan : Nat → List Char → Except SegmentFault (List Token)
  | _, [] => .ok []
  | 0, _ => .ok []
  | fuel + 1, c :: rest =>
    if c = '\\' then
      match rest with
      | [] => .error .danglingEscape
      | d :: rest => (scan fuel rest).map (.literal d :: ·)
    else if c = '*' then (scan fuel rest).map (.anything :: ·)
    else if c = '?' then (scan fuel rest).map (.anyOne :: ·)
    else if c = '[' then
      match readSet rest with
      | some (negated, members, after) => (scan fuel after).map (.set negated members :: ·)
      | none => (scan fuel rest).map (.literal c :: ·)
    else (scan fuel rest).map (.literal c :: ·)

/-- The ranges that the members of a set spell. A dash between two members makes a range; at either
end it is a member. -/
def ranges : List Char → Except SegmentFault (List (Char × Char))
  | low :: '-' :: high :: rest =>
    if high.toNat < low.toNat then .error .reversedRange
    else (ranges rest).map ((low, high) :: ·)
  | c :: rest => (ranges rest).map ((c, c) :: ·)
  | [] => .ok []

/-- The pattern of a token. -/
def pattern : Token → Except SegmentFault Pattern
  | .anything => .ok (.many .notSlash)
  | .anyOne => .ok (.one .notSlash)
  | .literal c => .ok (.char c)
  | .set negated members => (ranges members).map fun items => .one (.ranges negated items)

end Token

/-- The tokens of a segment. Each takes at least one character, so the length bounds their
number. -/
def segmentTokens (segment : List Char) : Except SegmentFault (List Token) :=
  Token.scan segment.length segment

end PlaceMap.Glob
