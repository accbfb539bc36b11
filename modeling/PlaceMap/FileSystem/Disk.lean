/-
A file system with links, held as a table of absolute places. A path is followed part by part from
the working directory or the root; a link is replaced by its target, and `..` leads to the
directory that holds the place reached so far.
-/
import PlaceMap.FileSystem
import PlaceMap.Text.Quoted

namespace PlaceMap

/-- What stands at a place. -/
inductive Disk.Node where
  | directory
  | file (octets : List Nat)
  | link (target : String)
  deriving DecidableEq, Repr

/-- Nodes by the parts of their places, and the parts of the working directory. The root always
exists. -/
structure Disk where
  workingDirectory : List String
  nodes : List (List String × Disk.Node)
  deriving Repr

namespace Disk

/-- The place of the working directory; a text that is no part of a path does not count. -/
def home (d : Disk) : List String := d.workingDirectory.filter fun part => FileName.IsPart part

/-- The node at a place, links not followed. -/
def node? (d : Disk) (place : List String) : Option Node :=
  if place = [] then some .directory
  else (d.nodes.find? fun n => n.1 == place).map (·.2)

/-- Whether a directory stands at a place, links not followed. -/
def isDirectoryAt (d : Disk) (place : List String) : Bool :=
  d.node? place == some .directory

/-- Why a path leads nowhere, or not to what was asked for. -/
inductive Fault where
  | notFound
  | notDirectory
  | isDirectory
  | tooManyLinks
  | nameTooLong
  deriving DecidableEq, Repr

/-- The kind of a fault. -/
def Fault.kind : Fault → FsError.Kind
  | .notFound => .notFound
  | .notDirectory => .notDirectory
  | .isDirectory => .isDirectory
  | .tooManyLinks | .nameTooLong => .system

/-- The number and the words for a fault. -/
def Fault.text : Fault → String
  | .notFound => "[Errno 2] No such file or directory"
  | .notDirectory => "[Errno 20] Not a directory"
  | .isDirectory => "[Errno 21] Is a directory"
  | .nameTooLong => "[Errno 36] File name too long"
  | .tooManyLinks => "[Errno 40] Too many levels of symbolic links"

/-- A fault of a path, with its text. -/
def Fault.toError (fault : Fault) (p : Path) : FsError :=
  ⟨fault.kind, fault.text ++ ": " ++ Text.quoted p.toText⟩

/-- The greatest number of octets of a name. -/
def maxName : Nat := 255

/-- The greatest number of octets of a path. -/
def maxPath : Nat := 4095

/-- The greatest number of links on the way to what a path leads to. -/
def maxLinks : Nat := 40

/-- What an entry of a directory is, links not followed. -/
def lookUp (d : Disk) (dir : List String) (name : String) : Except Fault Node :=
  if !d.isDirectoryAt dir then .error .notDirectory
  else if maxName < name.utf8ByteSize then .error .nameTooLong
  else
    match d.node? (dir ++ [name]) with
    | some node => .ok node
    | none => .error .notFound

/-- Follows parts from a place up to the first link, where `jump` goes on. With `strict`, the parts
that name no entry (`..`, `.` and the empty part) are taken only inside a directory. -/
def walk (d : Disk) (strict : Bool)
    (jump : List String → List String → Except Fault (List String)) :
    List String → List String → Except Fault (List String)
  | place, [] => .ok place
  | place, part :: rest =>
    if part ∈ ["", ".", ".."] then
      if strict && !d.isDirectoryAt place then .error .notDirectory
      else d.walk strict jump (if part = ".." then place.dropLast else place) rest
    else
      match d.lookUp place part with
      | .error fault => .error fault
      | .ok (.link target) =>
        let start := if Path.anchorOf target.toList = .relative then place else []
        jump start (Text.splitText '/' target ++ rest)
      | .ok _ => d.walk strict jump (place ++ [part]) rest

/-- Follows parts from a place, over at most so many links. -/
def follow (d : Disk) (strict : Bool) :
    Nat → List String → List String → Except Fault (List String)
  | 0 => d.walk strict fun _ _ => .error .tooManyLinks
  | links + 1 => d.walk strict (d.follow strict links)

/-- Where reading a path starts. -/
def start (d : Disk) (p : Path) : List String :=
  if p.anchor = .relative then d.home else []

/-- The place that a path leads to. -/
def locate (d : Disk) (p : Path) : Except Fault (List String) :=
  if maxPath < p.toText.utf8ByteSize then .error .nameTooLong
  else d.follow true maxLinks (d.start p) p.parts

/-- The node that a path leads to. -/
def nodeAt (d : Disk) (p : Path) : Except Fault Node := do
  let place ← d.locate p
  match d.node? place with
  | some node => .ok node
  | none => .error .notFound

/-- Whether a path leads to a node of some kind. A path that leads nowhere leads to none, unless a
name or the path itself is too long to be looked up at all. -/
def leadsTo (d : Disk) (p : Path) (kind : Node → Bool) : Except FsError Bool :=
  match d.nodeAt p with
  | .ok node => .ok (kind node)
  | .error .nameTooLong => .error (Fault.nameTooLong.toError p)
  | .error _ => .ok false

/-- The names in the directory at a place, in the order of their code points. -/
def names (d : Disk) (place : List String) : List String :=
  let below := d.nodes.filterMap fun (other, _) =>
    if other.dropLast = place then other.getLast? else none
  below.mergeSort fun a b => !(b < a)

/-- The names that a directory lists. -/
def list (d : Disk) (p : Path) : Except FsError (List String) :=
  match d.locate p with
  | .error fault => .error (fault.toError p)
  | .ok place =>
    if d.isDirectoryAt place then .ok (d.names place) else .error (Fault.notDirectory.toError p)

/-- Every way to end a line becomes a line feed. -/
def unifyNewlines : List Char → List Char
  | [] => []
  | '\r' :: '\n' :: rest => '\n' :: unifyNewlines rest
  | '\r' :: rest => '\n' :: unifyNewlines rest
  | c :: rest => c :: unifyNewlines rest

/-- The text of a file. -/
def read (d : Disk) (p : Path) : Except ReadError String :=
  match d.nodeAt p with
  | .error fault => .error (.failed (fault.toError p))
  | .ok (.file octets) =>
    match Text.Utf8.decode octets with
    | .ok text => .ok (String.ofList (unifyNewlines text.toList))
    | .error fault => .error (.undecodable fault)
  | .ok _ => .error (.failed (Fault.isDirectory.toError p))

/-- The number of links after which a path is taken to lead in circles. -/
def endless : Nat := 100000

/-- The place that a path leads to, as a path. Directories on the way have to exist, but `..` undoes
any part, and links are followed to their end. -/
def realPath (d : Disk) (p : Path) : Except FsError Path :=
  match d.follow false endless (d.start p) p.parts with
  | .ok place => .ok ⟨.root, place⟩
  | .error fault => .error (fault.toError p)

/-- Puts a node at a place, unless something stands there. -/
def put (d : Disk) (place : List String) (node : Node) : Disk :=
  if (d.node? place).isSome then d else { d with nodes := d.nodes ++ [(place, node)] }

/-- Enters a directory of the place reached so far, which is made if it is missing. -/
def enter (state : Disk × List String) (part : String) : Disk × List String :=
  let (d, place) := state
  match d.follow true maxLinks place [part] with
  | .ok found => (d, found)
  | .error _ => (d.put (place ++ [part]) .directory, place ++ [part])

/-- Puts a node at a place, instead of what stands there. -/
def replace (d : Disk) (place : List String) (node : Node) : Disk :=
  { d with nodes := d.nodes.filter (fun n => n.1 ≠ place) ++ [(place, node)] }

/-- Where a file is written that is given by a place: over at most so many links, the last of which
may lead to nothing yet. -/
def landing (d : Disk) : Nat → List String → List String
  | 0, place => place
  | links + 1, place =>
    match d.node? place with
    | some (.link target) =>
      let target := Path.ofString target
      let start := if target.anchor = .relative then place.dropLast else []
      match target.parts.getLast?, d.follow true links start target.parts.dropLast with
      | some name, .ok dir => d.landing links (dir ++ [name])
      | _, _ => place
    | _ => place

/-- Puts a node under an absolute path; missing directories on the way are made. A file is written
over what it meets, through links; anything else leaves what stands there. -/
def create (d : Disk) (p : Path) (node : Node) : Disk :=
  match p.parts.getLast? with
  | none => d
  | some name =>
    let (d, dir) := p.parts.dropLast.foldl enter (d, [])
    match node with
    | .file _ => d.replace (d.landing maxLinks (dir ++ [name])) node
    | _ => d.put (dir ++ [name]) node

/-- Whether a node is a file. -/
def Node.isFile : Node → Bool
  | .file _ => true
  | _ => false

/-- The disk as a file system. -/
def fileSystem (d : Disk) : FileSystem where
  workingDirectory := d.home
  has p := d.leadsTo p fun _ => true
  isDirectory p := d.leadsTo p (· == .directory)
  isFile p := d.leadsTo p Node.isFile
  list := d.list
  realPath := d.realPath
  read := d.read
  workingDirectory_isPart := fun _ h => of_decide_eq_true (List.mem_filter.1 h).2

end Disk

end PlaceMap
