/-
The table that the resolver is built on: which data files and which directories stand for which
tree paths, whether the tree is a whole game, and what went wrong on the way.
-/
import PlaceMap.Glob.Rule
import PlaceMap.Project.Loading
import PlaceMap.TreePath

namespace PlaceMap

/-- Something that went wrong and did not stop the building of a table. -/
inductive Warning where
  | missing (target : Path)
  | invalid (file : Path) (cause : Invalid)
  | unreadable (dir : Path) (cause : FsError)
  | ambiguous (used : Path) (ignored : List Path)
  | note (text : String)
  deriving Repr

namespace Warning

/-- The text of a warning, given the text of an invalid project's fault. -/
def textWith (fault : Invalid → String) : Warning → String
  | .missing target => "Path does not exist \"" ++ target.toText ++ "\""
  | .invalid file cause => "Invalid configuration in " ++ file.toText ++ ": " ++ fault cause
  | .unreadable dir cause => "Cannot read directory " ++ dir.toText ++ ": " ++ cause.message
  | .ambiguous used ignored =>
    "Multiple *.project.json files found, using " ++ used.toText ++ " (ignored: " ++
      String.intercalate ", " (ignored.map Path.toText) ++ ")"
  | .note text => text

/-- The text of a warning without the values that it complains of. -/
def summary : Warning → String := textWith Invalid.summary

/-- The full text of a warning; explanations stand below the address `help`. -/
def details (help : String) : Warning → String := textWith (Invalid.details help)

end Warning

/-- A file or directory that stands for a tree path and everything below it. -/
structure Partition where
  target : Path
  place : TreePath
  ignored : List IgnoreRule
  deriving DecidableEq, Repr

/-- Tree paths of single files, in the order in which the files were first mapped. -/
abbrev FileMap := List (Path × TreePath)

namespace FileMap

/-- The tree path of a file. -/
def find? (m : FileMap) (file : Path) : Option TreePath :=
  (List.find? (fun entry => entry.1 == file) m).map (·.2)

/-- Maps a file: a known file keeps its place in the order. -/
def insert : FileMap → Path → TreePath → FileMap
  | [], file, place => [(file, place)]
  | (f, p) :: rest, file, place =>
    if f = file then (f, place) :: rest else (f, p) :: insert rest file place

end FileMap

/-- What the building of a table has found. -/
structure Table where
  fileMap : FileMap
  /-- The partitions, the newest first. -/
  partitions : List Partition
  isGame : Bool
  warnings : List Warning
  deriving Repr

namespace Table

/-- The table before anything is found. -/
def empty : Table := ⟨[], [], false, []⟩

/-- Adds a warning. -/
def warn (w : Warning) (t : Table) : Table := { t with warnings := t.warnings ++ [w] }

/-- Maps a data file. -/
def mapFile (file : Path) (place : TreePath) (t : Table) : Table :=
  { t with fileMap := t.fileMap.insert file place }

/-- Registers a partition, as the newest. -/
def register (p : Partition) (t : Table) : Table := { t with partitions := p :: t.partitions }

/-- Notes that the tree is a whole game. -/
def markGame (t : Table) : Table := { t with isGame := true }

end Table

/-- The project file of a directory: its default project, or else the first candidate. Several
candidates are worth a warning. -/
def Project.find (fs : FileSystem) (dir : Path) : Except FsError (Option Path × List Warning) :=
  (candidates fs dir).map fun found =>
    match found with
    | [] => (none, [])
    | [file] => (some file, [])
    | file :: others => (some file, [.ambiguous file others])

end PlaceMap
