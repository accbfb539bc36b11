/-
Loading a project from its file, and finding the project file of a directory.
-/
import PlaceMap.FileSystem
import PlaceMap.Json.Reader
import PlaceMap.Project.Schema

namespace PlaceMap

/-- Why the contents of a file are no project. -/
inductive Invalid where
  | undecodable (file : Path) (fault : Text.Utf8.Fault)
  | malformed (file : Path) (fault : Json.Fault)
  | schema (report : Schema.Report)
  deriving Repr

namespace Invalid

/-- The text of a fault in the form that does not need the address of the explanations. -/
def summary : Invalid → String
  | .undecodable file fault => file.toText ++ ": " ++ fault.message
  | .malformed file fault => file.toText ++ ": " ++ fault.message
  | .schema report => report.summary

/-- The full text of a fault; explanations stand below the address `help`. -/
def details (help : String) : Invalid → String
  | .schema report => report.details help
  | other => other.summary

end Invalid

/-- Why a project cannot be loaded. -/
inductive LoadError where
  | missing (file : Path)
  | invalid (cause : Invalid)
  | failed (e : FsError)
  /-- The text holds an integer of too many digits. -/
  | oversized (digits : Nat)
  deriving Repr

/-- The text of a load error in the form that does not need the address of the explanations. -/
def LoadError.summary : LoadError → String
  | .missing file => "Path does not exist: " ++ file.toText
  | .invalid cause => cause.summary
  | .failed e => e.message
  | .oversized digits => (Json.Problem.tooManyDigits digits).text

namespace Project

/-- Reads a project from the text of its file. -/
def ofText (file : Path) (text : String) : Except LoadError Project :=
  match Json.read text with
  | .error fault =>
    match fault.oversized? with
    | some digits => .error (.oversized digits)
    | none => .error (.invalid (.malformed file fault))
  | .ok v =>
    match ofJson v with
    | .ok project => .ok project
    | .error report => .error (.invalid (.schema report))

/-- Reads the project of a file that exists. The text is read from where the path leads, while
errors name the path itself. -/
def ofFile (fs : FileSystem) (file : Path) : Except LoadError Project :=
  match fs.realPath file with
  | .error e => .error (.failed e)
  | .ok target =>
    match fs.read target with
    | .ok text => ofText file text
    | .error (.undecodable fault) => .error (.invalid (.undecodable file fault))
    | .error (.failed e) => .error (.failed e)

/-- Loads the project of a file. -/
def load (fs : FileSystem) (file : Path) : Except LoadError Project :=
  match fs.has file with
  | .error e => .error (.failed e)
  | .ok found => if found then ofFile fs file else .error (.missing file)

/-- A name that a directory's project file may have, if it has no default project. -/
def isCandidate (name : String) : Bool :=
  name ≠ FileName.defaultProject && (name == FileName.legacyProject || FileName.isProject name)

/-- The project files of a directory, in the order in which they are preferred. -/
def candidates (fs : FileSystem) (dir : Path) : Except FsError (List Path) := do
  let standard := dir.child FileName.defaultProject
  if ← fs.has standard then return [standard]
  else return ((← fs.list dir).filter isCandidate).map dir.child

end Project

end PlaceMap
