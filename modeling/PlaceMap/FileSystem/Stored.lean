/-
A file system held in memory. Its entries stand under the exact texts of their paths, and an entry
may be made to fail in a given way. Every directory on the way to an entry exists.
-/
import PlaceMap.FileSystem

namespace PlaceMap

/-- What stands under a path. -/
inductive Stored.Entry where
  | directory
  | text (content : String)
  | octets (content : List Nat)
  /-- Exists and is neither a file nor a directory. -/
  | special
  /-- A file whose contents stand under another path. -/
  | leadsTo (target : String)
  | unresolvable (e : FsError)
  | unreadable (e : FsError)
  /-- A directory that lists the given names. -/
  | listing (names : List String)
  | unlistable (e : FsError)
  deriving Repr

/-- Entries under the texts of their paths. -/
abbrev Stored := List (String × Stored.Entry)

namespace Stored

/-- The entry under a path. -/
def entry? (s : Stored) (key : String) : Option Entry :=
  (s.find? fun e => e.1 == key).map (·.2)

/-- Whether an entry is a directory. -/
def Entry.isDirectory : Entry → Bool
  | .directory | .listing _ | .unlistable _ => true
  | _ => false

/-- The directories on the way to a path. -/
def ancestors (p : Path) : List String :=
  (List.range p.parts.length).map fun i => Path.toText ⟨p.anchor, p.parts.take i⟩

/-- Whether a directory stands under a path: an entry that is one, a directory on the way to an
entry, or the root. -/
def hasDirectory (s : Stored) (key : String) : Bool :=
  key == "/" ||
    s.any fun (name, entry) =>
      (name == key && entry.isDirectory) || (ancestors (Path.ofString name)).contains key

/-- Whether anything stands under a path. -/
def has (s : Stored) (key : String) : Bool := (s.entry? key).isSome || s.hasDirectory key

/-- The names directly below a directory, of entries and of directories on the way to entries. -/
def names (s : Stored) (dir : Path) : List String :=
  let below := s.filterMap fun (name, _) =>
    match (Path.ofString name).below? dir with
    | some (first :: _) => some first
    | _ => none
  below.eraseDups.mergeSort fun a b => !(b < a)

/-- The names that a directory lists. -/
def list (s : Stored) (dir : Path) : Except FsError (List String) :=
  let key := dir.toText
  match s.entry? key with
  | some (.listing found) => .ok found
  | some (.unlistable e) => .error e
  | _ =>
    if s.hasDirectory key then .ok (s.names dir)
    else if (s.entry? key).isSome then .error ⟨.notDirectory, "Not a directory: " ++ key⟩
    else .error ⟨.notFound, "No such directory: " ++ key⟩

/-- Where a path leads. -/
def realPath (s : Stored) (p : Path) : Except FsError Path :=
  match s.entry? p.toText with
  | some (.leadsTo target) => .ok (Path.ofString target)
  | some (.unresolvable e) => .error e
  | _ => .ok p

/-- The text of a file. -/
def read (s : Stored) (p : Path) : Except ReadError String :=
  let key := p.toText
  match s.entry? key with
  | some (.text content) => .ok content
  | some (.octets content) => (Text.Utf8.decode content).mapError .undecodable
  | some (.unreadable e) => .error (.failed e)
  | _ =>
    if s.hasDirectory key then .error (.failed ⟨.isDirectory, "Is a directory: " ++ key⟩)
    else .error (.failed ⟨.notFound, "No such file: " ++ key⟩)

/-- Whether a file stands under a path. -/
def hasFile (s : Stored) (key : String) : Bool :=
  s.has key && !s.hasDirectory key &&
    !(match s.entry? key with
      | some .special => true
      | _ => false)

/-- The file system that holds the entries; its working directory is the root. -/
def fileSystem (s : Stored) : FileSystem where
  workingDirectory := []
  has p := .ok (s.has p.toText)
  isDirectory p := .ok (s.hasDirectory p.toText)
  isFile p := .ok (s.hasFile p.toText)
  list := s.list
  realPath := s.realPath
  read := s.read

end Stored

end PlaceMap
