/-
Ignore rules: a glob together with the directory that it is read in. A rule says nothing about its
own directory and about what lies outside of it.
-/
import PlaceMap.Glob
import PlaceMap.Path

namespace PlaceMap

/-- A glob and the directory of the project file that lists it. -/
structure IgnoreRule where
  root : Path
  glob : String
  deriving DecidableEq, Repr

namespace IgnoreRule

/-- Whether a rule covers a path. The glob is looked at only for paths in the rule's directory. -/
def covers (rule : IgnoreRule) (p : Path) : Except Glob.Fault Bool :=
  match p.below? rule.root with
  | none => .ok false
  | some parts => Glob.isMatch rule.glob parts

/-- Whether some rule covers a path. The rules are tried in order, up to the first that does. -/
def anyCovers : List IgnoreRule → Path → Except Glob.Fault Bool
  | [], _ => .ok false
  | rule :: rest, p => do
    if ← rule.covers p then return true
    anyCovers rest p

end IgnoreRule

end PlaceMap
