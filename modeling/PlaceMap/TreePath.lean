/-
Tree paths: the address of an instance in the instance tree, and the relative address of one
instance as seen from another. A relative address is a list of steps, read as a program that walks
up and down the tree (`Step.apply`, `TreePath.follow`).
-/
namespace PlaceMap

/-- The names from the root of the instance tree down to an instance; `[]` is the root itself. -/
abbrev TreePath := List String

/-- One step of a relative address: up to the parent, or down to a child. -/
inductive Step where
  | parent
  | child (name : String)
  deriving DecidableEq, Repr

/-- Going up drops the last name and is undefined at the root; going down appends a name. -/
def Step.apply : Step → TreePath → Option TreePath
  | .parent, [] => none
  | .parent, p@(_ :: _) => some p.dropLast
  | .child name, p => some (p ++ [name])

namespace TreePath

/-- Runs the steps of a relative address one after the other. -/
def follow : List Step → TreePath → Option TreePath
  | [], p => some p
  | s :: rest, p => (s.apply p).bind (follow rest)

/-- Agreement up to the shorter length: one of the two paths continues the other. -/
def agrees : TreePath → TreePath → Bool
  | x :: a, y :: b => x == y && agrees a b
  | _, _ => true

/-- The number of leading names that two paths share. -/
def commonLength : TreePath → TreePath → Nat
  | x :: a, y :: b => if x = y then commonLength a b + 1 else 0
  | _, _ => 0

/-- The address of `target` seen from `source`: up to their last common ancestor, then down. -/
def relative (source target : TreePath) : List Step :=
  let shared := commonLength source target
  List.replicate (source.length - shared) .parent ++ (target.drop shared).map .child

end TreePath

end PlaceMap
