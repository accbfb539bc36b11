/-
File names: the suffix by which a file is classified, the extensions that a module loses on its
way into the instance tree, and the names that mark a project file.

Two rules for where an extension begins are in use. A *suffix* begins at the last dot, if the dot
is neither the first nor the last character. An *extension* begins at the last dot, if some
character before it is no dot. The two differ on names such as `..luau` and `a.`.
-/
import PlaceMap.Text.Split

namespace PlaceMap.FileName

/-- What may stand between two slashes of a path: not empty, no single dot, and no slash in it. -/
def IsPart (name : String) : Prop := name ≠ "" ∧ name ≠ "." ∧ '/' ∉ name.toList

instance (name : String) : Decidable (IsPart name) :=
  inferInstanceAs (Decidable (_ ∧ _ ∧ _))

/-- The name of an entry of a directory: a part other than `..`. -/
def IsOrdinary (name : String) : Prop := IsPart name ∧ name ≠ ".."

instance (name : String) : Decidable (IsOrdinary name) :=
  inferInstanceAs (Decidable (_ ∧ _))

/-- The characters before and after the last dot. -/
def splitLastDot : List Char → Option (List Char × List Char)
  | [] => none
  | c :: cs =>
    match splitLastDot cs with
    | some (before, after) => some (c :: before, after)
    | none => if c = '.' then some ([], cs) else none

/-- The name without its suffix, and the suffix with its dot (or nothing). -/
def splitSuffix (name : List Char) : List Char × List Char :=
  match splitLastDot name with
  | some (before@(_ :: _), after@(_ :: _)) => (before, '.' :: after)
  | _ => (name, [])

/-- The characters after the last slash. -/
def baseName (cs : List Char) : List Char :=
  (cs.reverse.takeWhile (· ≠ '/')).reverse

/-- The name without its extension, and the extension with its dot (or nothing). Leading dots
belong to the name, and an extension never reaches across a slash. -/
def splitExtension (name : List Char) : List Char × List Char :=
  match splitLastDot name with
  | some (before, after) =>
    if '/' ∉ after ∧ (baseName before).any (· ≠ '.') then (before, '.' :: after) else (name, [])
  | none => (name, [])

/-- The suffix of a file name, dot included; empty if there is none. -/
def suffix (name : String) : String := String.ofList (splitSuffix name.toList).2

/-- A file name without its suffix. -/
def stem (name : String) : String := String.ofList (splitSuffix name.toList).1

/-- The extension of scripts. -/
def luau : List Char := ['.', 'l', 'u', 'a', 'u']

/-- The former extension of scripts. -/
def legacyLua : List Char := ['.', 'l', 'u', 'a']

/-- The extensions of data files, which become modules without being scripts. -/
def isDataExtension (ext : List Char) : Bool :=
  ext == ['.', 'j', 's', 'o', 'n'] || ext == ['.', 't', 'o', 'm', 'l']

/-- The second extension of a script that runs on the server. -/
def server : List Char := ['.', 's', 'e', 'r', 'v', 'e', 'r']

/-- The second extension of a script that runs on the client. -/
def client : List Char := ['.', 'c', 'l', 'i', 'e', 'n', 't']

/-- The stem that stands for its directory. -/
def initStem : String := "init"

/-- The name of a module in the instance tree: the extension of a script or data file is dropped,
and from a script also a second extension that says where it runs. -/
def stripExtensions (name : String) : String :=
  let (front, ext) := splitExtension name.toList
  if ext == luau then
    let (base, role) := splitExtension front
    String.ofList (if role == server || role == client then base else front)
  else if isDataExtension ext then String.ofList front
  else name

/-- The name under which a script is known: the former extension is replaced by the present one. -/
def toLuau (name : String) : String :=
  let (front, ext) := splitSuffix name.toList
  if ext == legacyLua then String.ofList (front ++ luau) else name

/-- The ending of every project file's name. -/
def projectEnding : List Char := ".project.json".toList

/-- A text without one final line feed. -/
def dropFinalNewline (cs : List Char) : List Char :=
  match cs.reverse with
  | '\n' :: rest => rest.reverse
  | _ => cs

/-- The name of a project file: at least one character, none of them a line feed, before
`.project.json`; one line feed may follow. -/
def isProject (name : String) : Bool :=
  let cs := dropFinalNewline name.toList
  let front := cs.take (cs.length - projectEnding.length)
  !front.isEmpty && !front.contains '\n' && cs.drop front.length == projectEnding

/-- The project file that stands for its directory. -/
def defaultProject : String := "default.project.json"

/-- The project file of earlier releases. -/
def legacyProject : String := "roblox-project.json"

end PlaceMap.FileName
