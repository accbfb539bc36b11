/-
File systems, as far as the building of a table looks at them: what exists, of what kind it is,
what a directory lists, where a path leads and what a file holds.
-/
import PlaceMap.Path
import PlaceMap.Text.Utf8

namespace PlaceMap

/-- The kind of a failure of a file system. -/
inductive FsError.Kind where
  | system
  | denied
  | notFound
  | notDirectory
  | isDirectory
  /-- An argument was not usable; no failure of the system itself. -/
  | unusable
  deriving DecidableEq, Repr

/-- A failure of a file system, with its text. -/
structure FsError where
  kind : FsError.Kind
  message : String
  deriving DecidableEq, Repr

/-- Whether a failure comes from the system, so that a walk can go on without the directory. -/
def FsError.isSystem (e : FsError) : Bool := e.kind ≠ .unusable

/-- Why a file cannot be read as text. -/
inductive ReadError where
  | failed (e : FsError)
  | undecodable (fault : Text.Utf8.Fault)
  deriving DecidableEq, Repr

/-- A file system as seen from a working directory, which is given by its parts. Whether something
exists, or is of a kind, is a question that may fail. -/
structure FileSystem where
  workingDirectory : List String
  has : Path → Except FsError Bool
  isDirectory : Path → Except FsError Bool
  isFile : Path → Except FsError Bool
  list : Path → Except FsError (List String)
  realPath : Path → Except FsError Path
  read : Path → Except ReadError String
  workingDirectory_isPart : ∀ part ∈ workingDirectory, FileName.IsPart part := by simp

/-- The absolute form of a path without `..`. -/
def FileSystem.normalize (fs : FileSystem) (p : Path) : Path := p.normalize fs.workingDirectory

end PlaceMap
