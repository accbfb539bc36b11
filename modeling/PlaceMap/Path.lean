/-
File paths. A path is an anchor and a list of parts; the parts are free of slashes, empty texts and
single dots, while `..` is kept until the path is normalized. Exactly two leading slashes are an
anchor of their own, so `//a` does not lie below `/`.
-/
import PlaceMap.FileName

namespace PlaceMap

/-- Where a path starts: in the working directory, at the root, or at the second root `//`. -/
inductive Anchor where
  | relative
  | root
  | doubleRoot
  deriving DecidableEq, Repr

/-- The text in front of the first part. -/
def Anchor.text : Anchor → String
  | .relative => ""
  | .root => "/"
  | .doubleRoot => "//"

/-- A file path. -/
structure Path where
  anchor : Anchor
  parts : List String
  deriving DecidableEq, Repr

namespace Path

/-- The anchor that a text's leading slashes spell. -/
def anchorOf : List Char → Anchor
  | '/' :: '/' :: '/' :: _ => .root
  | '/' :: '/' :: _ => .doubleRoot
  | '/' :: _ => .root
  | _ => .relative

/-- Reads a path: repeated and trailing slashes and `.` parts vanish. -/
def ofString (s : String) : Path :=
  ⟨anchorOf s.toList, (Text.splitText '/' s).filter fun part => part ≠ "" ∧ part ≠ "."⟩

/-- Writes a path; the empty relative path is written `.`. -/
def toText (p : Path) : String :=
  if p.anchor = .relative ∧ p.parts = [] then "."
  else p.anchor.text ++ String.intercalate "/" p.parts

/-- The anchor, if it has a text, followed by the parts. -/
def components (p : Path) : List String :=
  if p.anchor = .relative then p.parts else p.anchor.text :: p.parts

/-- `p` as seen from `base`: an absolute `p` stands for itself. -/
def join (base p : Path) : Path :=
  if p.anchor = .relative then ⟨base.anchor, base.parts ++ p.parts⟩ else p

/-- The entry of that name in a directory. -/
def child (dir : Path) (name : String) : Path := dir.join (ofString name)

/-- The directory that holds a path; a path without parts is its own parent. -/
def parent (p : Path) : Path := ⟨p.anchor, p.parts.dropLast⟩

/-- The last part; empty for a path without parts. -/
def name (p : Path) : String := p.parts.getLast?.getD ""

/-- The suffix of the last part. -/
def suffix (p : Path) : String := FileName.suffix p.name

/-- Changes the last part. -/
def mapName (f : String → String) (p : Path) : Path :=
  match p.parts.getLast? with
  | some last => ⟨p.anchor, p.parts.dropLast ++ [f last]⟩
  | none => p

/-- The path with the former script extension replaced by the present one. -/
def toLuau (p : Path) : Path := p.mapName FileName.toLuau

/-- A script is known by the suffix `.luau`. -/
def isScript (p : Path) : Bool := p.suffix.toList == FileName.luau

/-- A data file is known by the suffix `.json` or `.toml`. -/
def isData (p : Path) : Bool := FileName.isDataExtension p.suffix.toList

/-- Takes one part on a stack of the parts before it: `..` undoes the last part, and does nothing
at the root. -/
def squashStep (stack : List String) (part : String) : List String :=
  if part = ".." then stack.tail else part :: stack

/-- Resolves every `..` of an absolute path by the names alone. -/
def squash (parts : List String) : List String :=
  (parts.foldl squashStep []).reverse

/-- The absolute path without `..`, as read in the directory with the parts `cwd`. Links are left
alone. -/
def normalize (cwd : List String) (p : Path) : Path :=
  match p.anchor with
  | .relative => ⟨.root, squash (cwd ++ p.parts)⟩
  | anchor => ⟨anchor, squash p.parts⟩

/-- The parts of `p` below `dir`, if `p` is `dir` or lies below it. -/
def below? (p dir : Path) : Option (List String) :=
  if p.anchor = dir.anchor ∧ dir.parts.isPrefixOf p.parts then some (p.parts.drop dir.parts.length)
  else none

/-- `p` is `dir` or lies below it. -/
def isWithin (p dir : Path) : Bool := (p.below? dir).isSome

end Path

end PlaceMap
