/-
The resolver: it answers where in the instance tree a file is found, on which side of the network a
tree path runs, and how two tree paths see each other.
-/
import PlaceMap.Config
import PlaceMap.ScriptKind
import PlaceMap.Table.Walk

namespace PlaceMap

/-- How a file and a module that it requires stand to the isolated containers. -/
inductive Relation where
  | outToOut
  | outToIn
  | inToOut
  | inToIn
  deriving DecidableEq, Repr

/-- The side of the network on which a tree path runs. -/
inductive Side where
  | unknown
  | client
  | server
  deriving DecidableEq, Repr

/-- A table together with the containers to classify by. -/
structure Resolver where
  table : Table
  config : Config
  deriving Repr

namespace Resolver

/-- The parts of a file below a partition as tree names: the last one loses its extensions, and the
script that stands for its directory has no name of its own. -/
def moduleNames (isScript : Bool) (parts : List String) : List String :=
  match parts.getLast? with
  | none => []
  | some last =>
    let name := FileName.stripExtensions last
    if isScript && name == FileName.initStem then parts.dropLast else parts.dropLast ++ [name]

/-- The tree path of a file in the first of some partitions that holds it and does not ignore it. -/
def inPartitions (file : Path) : List Partition → Except Glob.Fault (Option TreePath)
  | [] => .ok none
  | p :: rest =>
    match file.below? p.target with
    | none => inPartitions file rest
    | some parts => do
      if ← IgnoreRule.anyCovers p.ignored file then inPartitions file rest
      else return some (p.place ++ moduleNames file.isScript parts)

/-- The tree path of a file, if it is mapped. Mapped data files come before partitions, and newer
partitions before older ones. -/
def treePath (r : Resolver) (cwd : List String) (file : Path) :
    Except Glob.Fault (Option TreePath) :=
  let file := (file.normalize cwd).toLuau
  match r.table.fileMap.find? file with
  | some place => .ok (some place)
  | none => inPartitions file r.table.partitions

/-- The first container that a tree path agrees with. Outside of a game there are no containers. -/
def container (r : Resolver) (containers : List TreePath) (place : Option TreePath) :
    Option TreePath :=
  match place with
  | none => none
  | some p => if r.table.isGame then containers.find? fun c => p.agrees c else none

/-- Whether a tree path lies in an isolated container. -/
def isIsolated (r : Resolver) (place : Option TreePath) : Bool :=
  (r.container r.config.isolated place).isSome

/-- How the tree path of a file and that of a required module stand to the isolated containers. Two
different containers are as good as outside and inside. -/
def relation (r : Resolver) (file required : Option TreePath) : Relation :=
  match r.container r.config.isolated file, r.container r.config.isolated required with
  | some c, some d => if c = d then .inToIn else .outToIn
  | some _, none => .inToOut
  | none, some _ => .outToIn
  | none, none => .outToOut

/-- The side on which a tree path runs; the server's containers are tried first. -/
def side (r : Resolver) (place : Option TreePath) : Side :=
  if (r.container r.config.server place).isSome then .server
  else if (r.container r.config.client place).isSome then .client
  else .unknown

/-- Builds a resolver from a walk on the empty table. -/
def ofWalk (config : Config) (w : Walk Unit) : Except Stop Resolver :=
  match Walk.runOn w .empty with
  | (.ok _, table) => .ok ⟨table, config⟩
  | (.error stop, _) => .error stop

/-- The resolver of a project file. -/
def ofProject (fs : FileSystem) (depth : Nat) (config : Config) (file : Path) :
    Except Stop Resolver :=
  ofWalk config (Walk.ofProject fs depth file)

/-- The resolver of a tree whose bindings are read in the directory `base`. -/
def ofTree (fs : FileSystem) (depth : Nat) (config : Config) (base : Path) (tree : TreeNode) :
    Except Stop Resolver :=
  ofWalk config (Walk.ofTree fs depth base tree)

/-- The resolver in which a directory stands for the root of the tree. -/
def synthetic (fs : FileSystem) (depth : Nat) (config : Config) (base : Path) :
    Except Stop Resolver :=
  ofWalk config (Walk.ofDirectory fs depth base)

/-- What a resolver is built from: a project file, a tree read in a directory, or a directory. Paths
are given by their texts. -/
inductive Source where
  | project (file : String)
  | tree (base : String) (node : TreeNode)
  | directory (base : String)
  deriving Repr

/-- The walk that fills the table of a resolver. -/
def Source.walk (fs : FileSystem) (depth : Nat) : Source → Walk Unit
  | .project file => Walk.ofProject fs depth (.ofString file)
  | .tree base node => Walk.ofTree fs depth (.ofString base) node
  | .directory base => Walk.ofDirectory fs depth (.ofString base)

/-- Builds the resolver of a source. -/
def build (fs : FileSystem) (depth : Nat) (config : Config) : Source → Except Stop Resolver
  | .project file => ofProject fs depth config (.ofString file)
  | .tree base node => ofTree fs depth config (.ofString base) node
  | .directory base => synthetic fs depth config (.ofString base)

end Resolver

end PlaceMap
