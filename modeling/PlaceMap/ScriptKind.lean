/-
What kind of instance a file becomes, read off its name.
-/
import PlaceMap.Path

namespace PlaceMap

/-- The kinds of script instances; `unknown` is a script with an unknown second extension. -/
inductive ScriptKind where
  | moduleScript
  | script
  | localScript
  | unknown
  deriving DecidableEq, Repr

/-- The kind of a file. Only a script's second suffix says where it runs; every other file is a
module. -/
def ScriptKind.ofPath (p : Path) : ScriptKind :=
  let p := p.toLuau
  if p.isScript then
    let role := (FileName.splitSuffix (FileName.stem p.name).toList).2
    if role == [] then .moduleScript
    else if role == FileName.server then .script
    else if role == FileName.client then .localScript
    else .unknown
  else .moduleScript

end PlaceMap
