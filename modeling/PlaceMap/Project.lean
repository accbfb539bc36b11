/-
Projects: a named tree of instances, some of whose nodes are bound to files or directories.
-/
import PlaceMap.Json

namespace PlaceMap

/-- What a node is bound to. A required target is reported if it is missing, an optional one is
not. -/
inductive Binding where
  | required (path : String)
  | optional (path : String)
  deriving DecidableEq, Repr

namespace Binding

/-- The path of the target. -/
def path : Binding → String
  | .required path => path
  | .optional path => path

/-- Whether the target may be missing. -/
def isOptional : Binding → Bool
  | .required _ => false
  | .optional _ => true

end Binding

/-- A property in the listed form; unknown fields are kept. -/
structure Property where
  type : Option String
  value : Json
  extra : Json.Fields
  deriving Repr

/-- The properties of a node, in one of two forms. -/
inductive Properties where
  | listed (items : List Property)
  | keyed (fields : Json.Fields)
  deriving Repr

/-- A node of a project's tree; its children stand in the order of the document. -/
structure TreeNode where
  className : Option String
  binding : Option Binding
  properties : Option Properties
  ignoreUnknown : Option Bool
  children : List (String × TreeNode)
  deriving Repr

/-- The class of a node that makes its project a whole game. -/
def gameClass : String := "DataModel"

/-- A node without children that is bound to a path. -/
def TreeNode.bound (path : String) : TreeNode := ⟨none, some (.required path), none, none, []⟩

/-- A project file's contents; unknown fields are kept. -/
structure Project where
  name : String
  tree : TreeNode
  ignored : Option (List String)
  servePort : Option Int
  extra : Json.Fields
  deriving Repr

end PlaceMap
