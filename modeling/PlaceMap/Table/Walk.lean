/-
The walk that fills a table. It visits project files, the targets of bindings and directories.
Whatever a project file or a directory holds, the walk reports it and goes on; what stops it is a
glob without a pattern, a failing file system, or the limit on its depth. The table survives a
stop as it was then, and the tables on the way to it are kept, so that one can say what held at
every point of a walk.

A visit may ask for further visits. One level of a visit is a step `Walk.enter` of which the visits
below are a parameter; `Walk.visit` ties the levels together up to a given depth.
-/
import PlaceMap.Table

namespace PlaceMap

/-- What stops a walk. -/
inductive Stop where
  | glob (fault : Glob.Fault)
  | failed (e : FsError)
  /-- A project file holds an integer of too many digits. -/
  | oversized (digits : Nat)
  /-- The visits are nested too deeply. -/
  | tooDeep
  deriving DecidableEq, Repr

/-- The text of a stop, if it has one. -/
def Stop.message? : Stop → Option String
  | .glob fault => fault.message?
  | .failed e => some e.message
  | .oversized digits => some (Json.Problem.tooManyDigits digits).text
  | .tooDeep => none

/-- The course of a walk: the table as it is now, and the tables before it, the latest first. -/
structure Course where
  now : Table
  before : List Table
  deriving Repr

namespace Course

/-- Every table of a course, from the latest to the first. -/
def tables (c : Course) : List Table := c.now :: c.before

/-- Goes on to a changed table. -/
def change (f : Table → Table) (c : Course) : Course := ⟨f c.now, c.tables⟩

end Course

/-- A program over the table that may stop. -/
abbrev Walk := ExceptT Stop (StateM Course)

/-- Something to be visited, with the tree path that it stands for. -/
inductive Visit where
  /-- A project file; the project's name is added to the tree path unless it is a `root`. -/
  | project (file : Path) (place : TreePath) (root : Bool)
  /-- The target of a binding. -/
  | target (path : Path) (place : TreePath) (ignored : List IgnoreRule) (optional : Bool)
  /-- A directory below a partition, in which project files are looked for. Its name is added to
  the tree path; the partition's own directory comes without a name. -/
  | directory (dir : Path) (place : TreePath) (name : Option String) (ignored : List IgnoreRule)
  deriving DecidableEq, Repr

namespace Walk

/-- Changes the table. -/
def change (f : Table → Table) : Walk Unit := modify (Course.change f)

/-- Adds a warning to the table. -/
def warn (w : Warning) : Walk Unit := change (Table.warn w)

/-- Whether some rule covers a path; a glob without a pattern stops the walk. -/
def isIgnored (rules : List IgnoreRule) (p : Path) : Walk Bool :=
  match IgnoreRule.anyCovers rules p with
  | .ok b => return b
  | .error fault => throw (.glob fault)

/-- The answer of a file system to a question about what stands where; a failure stops the walk. -/
def ask (answer : Except FsError Bool) : Walk Bool :=
  match answer with
  | .ok b => return b
  | .error e => throw (.failed e)

/-- What a directory lists. A failure of the system is worth a warning. -/
def list (fs : FileSystem) (dir : Path) : Walk (Option (List String)) :=
  match fs.list dir with
  | .ok names => return some names
  | .error e =>
    if e.isSystem then do
      warn (.unreadable dir e)
      return none
    else throw (.failed e)

/-- Visits the target of a node, if it has one. -/
def bound (fs : FileSystem) (visit : Visit → Walk Unit) (base : Path) (ignored : List IgnoreRule)
    (binding : Option Binding) (place : TreePath) : Walk Unit :=
  match binding with
  | none => pure ()
  | some b =>
    visit (.target (fs.normalize (base.join (Path.ofString b.path))) place ignored b.isOptional)

/-- Notes the class that makes a tree a whole game. -/
def noteClass (className : Option String) : Walk Unit :=
  if className = some gameClass then change Table.markGame else pure ()

mutual

/-- Visits the bindings of a tree in the order of the document, a node before its children. -/
def nodes (fs : FileSystem) (visit : Visit → Walk Unit) (base : Path) (ignored : List IgnoreRule) :
    TreeNode → TreePath → Walk Unit
  | ⟨className, binding, _, _, children⟩, place => do
    bound fs visit base ignored binding place
    noteClass className
    childNodes fs visit base ignored children place

/-- Visits the bindings of some children of a node. -/
def childNodes (fs : FileSystem) (visit : Visit → Walk Unit) (base : Path)
    (ignored : List IgnoreRule) : List (String × TreeNode) → TreePath → Walk Unit
  | [], _ => pure ()
  | (name, child) :: rest, place => do
    nodes fs visit base ignored child (place ++ [name])
    childNodes fs visit base ignored rest place

end

/-- The tree path of a project: the name of a project that is no root is added. -/
def placeOf (root : Bool) (name : String) (place : TreePath) : TreePath :=
  if root then place else place ++ [name]

/-- Visits the bindings of a named tree. -/
def tree (fs : FileSystem) (visit : Visit → Walk Unit) (base : Path) (name : String)
    (node : TreeNode) (place : TreePath) (root : Bool) (ignored : List IgnoreRule) : Walk Unit :=
  nodes fs visit base ignored node (placeOf root name place)

/-- Visits a project file. One that is missing or invalid is worth a warning and changes nothing
else. The globs of a project are read in the directory of its file. -/
def project (fs : FileSystem) (visit : Visit → Walk Unit) (file : Path) (place : TreePath)
    (root : Bool) : Walk Unit :=
  match Project.load fs file with
  | .ok p =>
    let base := file.parent
    tree fs visit base p.name p.tree place root ((p.ignored.getD []).map (IgnoreRule.mk base))
  | .error (.missing _) => warn (.missing file)
  | .error (.invalid cause) => warn (.invalid file cause)
  | .error (.failed e) => throw (.failed e)
  | .error (.oversized digits) => throw (.oversized digits)

/-- Visits a target that is a directory: a default project is included in its place, otherwise it
becomes a partition in which project files are looked for. -/
def targetDirectory (fs : FileSystem) (visit : Visit → Walk Unit) (path : Path) (place : TreePath)
    (ignored : List IgnoreRule) : Walk Unit := do
  match ← list fs path with
  | none => pure ()
  | some names =>
    if names.contains FileName.defaultProject then
      visit (.project (path.child FileName.defaultProject) place true)
    else do
      change (Table.register ⟨path, place, ignored⟩)
      visit (.directory path place none ignored)

/-- Maps a data file; every other target becomes a partition. Whether a target is a directory is
asked only if it exists, as `found` says. -/
def settle (fs : FileSystem) (visit : Visit → Walk Unit) (path : Path) (place : TreePath)
    (ignored : List IgnoreRule) (found : Bool) : Walk Unit := do
  if path.isData then change (Table.mapFile path place)
  else if ← (if found then ask (fs.isDirectory path) else pure false) then
    targetDirectory fs visit path place ignored
  else change (Table.register ⟨path, place, ignored⟩)

/-- Visits a target that is no project file. One that is missing is settled as well, with a warning
unless it is optional. -/
def plainTarget (fs : FileSystem) (visit : Visit → Walk Unit) (path : Path) (place : TreePath)
    (ignored : List IgnoreRule) (optional found : Bool) : Walk Unit :=
  if found || optional then settle fs visit path place ignored found
  else do
    warn (.missing path)
    settle fs visit path place ignored found

/-- Visits the target of a binding. An ignored target is passed over, and a project file is
included. -/
def target (fs : FileSystem) (visit : Visit → Walk Unit) (path : Path) (place : TreePath)
    (ignored : List IgnoreRule) (optional : Bool) : Walk Unit := do
  let path := path.toLuau
  if ← isIgnored ignored path then pure ()
  else do
    let found ← ask (fs.has path)
    if FileName.isProject path.name then
      if found || !optional then visit (.project path place true) else pure ()
    else plainTarget fs visit path place ignored optional found

/-- Visits an entry of a directory if it is a project file. -/
def projectEntry (fs : FileSystem) (visit : Visit → Walk Unit) (dir : Path) (place : TreePath)
    (name : String) : Walk Unit := do
  if FileName.isProject name then
    if ← ask (fs.isFile (dir.child name)) then visit (.project (dir.child name) place false)
    else pure ()
  else pure ()

/-- Visits an entry of a directory if it is a directory. -/
def directoryEntry (fs : FileSystem) (visit : Visit → Walk Unit) (dir : Path) (place : TreePath)
    (ignored : List IgnoreRule) (name : String) : Walk Unit := do
  if ← ask (fs.isDirectory (dir.child name)) then
    visit (.directory (dir.child name) place (some name) ignored)
  else pure ()

/-- Visits the entries of a directory: first the project files in it, then its directories. -/
def entries (fs : FileSystem) (visit : Visit → Walk Unit) (dir : Path) (place : TreePath)
    (ignored : List IgnoreRule) (names : List String) : Walk Unit := do
  names.forM (projectEntry fs visit dir place)
  names.forM (directoryEntry fs visit dir place ignored)

/-- Visits a directory below a partition. A default project stands for the directory, and its name
takes the place of the directory's name. Otherwise the entries are visited, unless the directory is
ignored. -/
def directory (fs : FileSystem) (visit : Visit → Walk Unit) (dir : Path) (place : TreePath)
    (name : Option String) (ignored : List IgnoreRule) : Walk Unit := do
  match ← list fs dir with
  | none => pure ()
  | some names =>
    if names.contains FileName.defaultProject then
      visit (.project (dir.child FileName.defaultProject) place false)
    else if ← isIgnored ignored dir then pure ()
    else entries fs visit dir (place ++ name.toList) ignored names

/-- One level of a visit. -/
def enter (fs : FileSystem) (visit : Visit → Walk Unit) : Visit → Walk Unit
  | .project file place root => project fs visit file place root
  | .target path place ignored optional => target fs visit path place ignored optional
  | .directory dir place name ignored => directory fs visit dir place name ignored

/-- A visit of at most `depth` levels. -/
def visit (fs : FileSystem) : Nat → Visit → Walk Unit
  | 0, _ => throw .tooDeep
  | depth + 1, v => enter fs (visit fs depth) v

/-- Goes on with a course: how the walk ends, and the course up to there. -/
def follow {α : Type} (w : Walk α) (c : Course) : Except Stop α × Course :=
  StateT.run (ExceptT.run w) c

/-- The course of a walk from a table on. -/
def course {α : Type} (w : Walk α) (t : Table) : Course := (w.follow ⟨t, []⟩).2

/-- The visit of a project file, as a build begins with it. -/
def ofProject (fs : FileSystem) (depth : Nat) (file : Path) : Walk Unit :=
  visit fs depth (.project (fs.normalize file) [] true)

/-- The visits of the bindings of a tree, which are read in the directory `base`. -/
def ofTree (fs : FileSystem) (depth : Nat) (base : Path) (node : TreeNode) : Walk Unit :=
  tree fs (visit fs depth) (fs.normalize base) "" node [] true []

/-- The visit of a directory that stands for the root of the tree. -/
def ofDirectory (fs : FileSystem) (depth : Nat) (base : Path) : Walk Unit :=
  let base := fs.normalize base
  ofTree fs depth base (.bound base.toText)

/-- Runs a walk on a table: how it ends, and the table that it leaves. -/
def runOn {α : Type} (w : Walk α) (t : Table) : Except Stop α × Table :=
  let run := w.follow ⟨t, []⟩
  (run.1, run.2.now)

end Walk

end PlaceMap
