/-
Reading a project from a JSON value. In a node, keys that start with `$` describe the node itself
and every other key names a child.
-/
import PlaceMap.Project
import PlaceMap.Schema.Scalar

namespace PlaceMap

open Schema

/-- The key of a node's class. -/
def classKey : String := "$className"

/-- The key of a node's binding. -/
def pathKey : String := "$path"

/-- The key of a node's properties. -/
def propertiesKey : String := "$properties"

/-- The key of a node's flag for instances that the tree does not list. -/
def ignoreUnknownKey : String := "$ignoreUnknownInstances"

/-- A key that describes the node. -/
def isMetadata (key : String) : Bool := key.toList.head? == some '$'

/-- A key that may describe the node, or names a child. -/
def isKnownKey (key : String) : Bool :=
  !isMetadata key || key ∈ [classKey, pathKey, propertiesKey, ignoreUnknownKey]

/-- Reads the form of a binding that tolerates a missing target. -/
def Binding.checkOptional (v : Json) : Checked Binding :=
  match v with
  | .obj fields =>
    Checked.guarded ((Schema.required v fields "optional" string).map Binding.optional)
      (unknown (· == "optional") fields)
  | _ => .refuse (.notModel "OptionalPath") v

/-- Reads a binding. -/
def Binding.check : Json → Checked Binding :=
  either "str" "OptionalPath" (fun v => (string v).map .required) checkOptional

/-- Reads a listed property. -/
def Property.check (v : Json) : Checked Property :=
  match v with
  | .obj fields =>
    (optional fields "Type" none (nullable string)).map fun type =>
      ⟨type, (Json.Fields.find? fields "Value").getD .null,
        fields.filter fun field => field.1 ≠ "Type" ∧ field.1 ≠ "Value"⟩
  | _ => .refuse (.notModel "TreeProperty") v

/-- Reads properties by name. -/
def Properties.checkKeyed : Json → Checked Properties
  | .obj fields => .ok (.keyed fields)
  | v => .refuse .notDictionary v

/-- Reads properties in either form. -/
def Properties.check : Json → Checked Properties :=
  either "list[TreeProperty]" "dict[str,any]" (fun v => (list Property.check v).map .listed)
    checkKeyed

namespace TreeNode

/-- The greatest depth of a node below the root. -/
def maxDepth : Nat := 254

mutual

/-- Reads a node below which as many levels are allowed as `room` says. -/
def checkAt (room : Nat) : Json → Checked TreeNode
  | .obj fields =>
    let children := Checked.within ["children"] (checkChildren room fields)
    let node :=
      (Checked.both (fun className binding => TreeNode.mk className binding)
          (optional fields classKey none (nullable string))
          (optional fields pathKey none (nullable Binding.check)))
        |>.apply (optional fields propertiesKey none (nullable Properties.check))
        |>.apply (optional fields ignoreUnknownKey none (nullable boolean))
        |>.apply children
    node.guarded (unknown isKnownKey fields)
  | v => .refuse (.notModel "TreeNode") v

/-- Reads the children among the fields of a node, in their order. -/
def checkChildren (room : Nat) : List (String × Json) → Checked (List (String × TreeNode))
  | [] => .ok []
  | (key, v) :: rest =>
    if isMetadata key then checkChildren room rest
    else
      let child :=
        match room with
        | 0 => .refuse .tooDeep v
        | room + 1 => checkAt room v
      Checked.both (fun node nodes => (key, node) :: nodes) (Checked.within [key] child)
        (checkChildren room rest)

end

/-- Reads a tree. -/
def ofJson (v : Json) : Except Report TreeNode :=
  (checkAt maxDepth v).report "TreeNode"

end TreeNode

namespace Project

/-- The fields of a project that have a meaning. -/
def knownKeys : List String := ["name", "tree", "globIgnorePaths", "servePort"]

/-- Reads a project. -/
def check (v : Json) : Checked Project :=
  match v with
  | .obj fields =>
    (Checked.both (fun name tree => Project.mk name tree)
        (required v fields "name" string)
        (required v fields "tree" (TreeNode.checkAt TreeNode.maxDepth)))
      |>.apply (optional fields "globIgnorePaths" none (nullable (list string)))
      |>.apply (optional fields "servePort" none (nullable integer))
      |>.apply (.ok (fields.filter fun field => field.1 ∉ knownKeys))
  | _ => .refuse (.notModel "ProjectFile") v

/-- Reads a project. -/
def ofJson (v : Json) : Except Report Project := (check v).report "ProjectFile"

end Project

end PlaceMap
