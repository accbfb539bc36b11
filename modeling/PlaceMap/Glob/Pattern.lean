/-
Patterns over texts: sets of characters, repetition of a set, sequence and option. A pattern is run
with what has to hold of the rest of the text, so that every way to match is tried.
-/
namespace PlaceMap.Glob

/-- A set of characters. -/
inductive CharSet where
  /-- Every character but the line feed. -/
  | inLine
  /-- Every character but the slash. -/
  | notSlash
  /-- One character. -/
  | only (c : Char)
  /-- The characters in some of the ranges, or, if negated, in none of them. -/
  | ranges (negated : Bool) (items : List (Char × Char))
  deriving DecidableEq, Repr

/-- Membership in a set of characters. -/
def CharSet.contains : CharSet → Char → Bool
  | .inLine, c => c != '\n'
  | .notSlash, c => c != '/'
  | .only d, c => c == d
  | .ranges negated items, c =>
    negated != items.any fun (low, high) => low.toNat ≤ c.toNat && c.toNat ≤ high.toNat

/-- A pattern. -/
inductive Pattern where
  | empty
  | one (set : CharSet)
  | many (set : CharSet)
  | seq (first second : Pattern)
  | optional (inner : Pattern)
  deriving DecidableEq, Repr

namespace Pattern

/-- Takes any number of characters of a set and requires `k` of the rest. -/
def runMany (set : CharSet) (k : List Char → Bool) : List Char → Bool
  | [] => k []
  | c :: cs => k (c :: cs) || (set.contains c && runMany set k cs)

/-- Whether a pattern matches some front of the text such that `k` holds of the rest. -/
def run : Pattern → (List Char → Bool) → List Char → Bool
  | .empty, k, cs => k cs
  | .one _, _, [] => false
  | .one set, k, c :: cs => set.contains c && k cs
  | .many set, k, cs => runMany set k cs
  | .seq first second, k, cs => first.run (second.run k) cs
  | .optional inner, k, cs => inner.run k cs || k cs

/-- Where a match may end: at the end of the text, or before one final line feed. -/
def atEnd : List Char → Bool
  | [] => true
  | ['\n'] => true
  | _ => false

/-- Whether a pattern matches a whole text. -/
def accepts (p : Pattern) (cs : List Char) : Bool := p.run atEnd cs

/-- The sequence of some patterns. -/
def concat : List Pattern → Pattern
  | [] => .empty
  | p :: rest => .seq p (concat rest)

/-- One character. -/
def char (c : Char) : Pattern := .one (.only c)

/-- At least one character of a set. -/
def atLeastOne (set : CharSet) : Pattern := .seq (.one set) (.many set)

end Pattern

end PlaceMap.Glob
