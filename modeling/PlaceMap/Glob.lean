/-
Globs, as they stand in a list of ignored paths. A glob is cut at its slashes. One that names a
single segment matches at every depth, one with a slash at its start or inside only from the root;
`**` stands for any number of segments, a final slash restricts the glob to what lies below, and
a match of a directory covers everything below it. A glob is empty, a comment or negated if it
never matches.
-/
import PlaceMap.Glob.Segment
import PlaceMap.Text.Blank
import PlaceMap.Text.Quoted
import PlaceMap.Text.Split

namespace PlaceMap.Glob

/-- Why a glob has no pattern. -/
inductive Fault where
  | malformed (glob : String)
  | reversedRange
  deriving DecidableEq, Repr

/-- The text of a fault; a reversed range has none. -/
def Fault.message? : Fault → Option String
  | .malformed glob => some ("Invalid git pattern: " ++ Text.quoted glob)
  | .reversedRange => none

/-- Blanks around a glob do not count, except an escaped space at its end. -/
def strip (cs : List Char) : List Char :=
  match cs.reverse with
  | ' ' :: '\\' :: _ => cs.dropWhile Text.isBlank
  | _ => Text.trim Text.isBlank cs

/-- The segment that stands for any number of segments. -/
def anyDepth : List Char := ['*', '*']

/-- Leaves one of several neighbouring `**`. -/
def collapse : List (List Char) → List (List Char)
  | [] => []
  | s :: rest =>
    match collapse rest with
    | [] => [s]
    | t :: rest => if s = anyDepth ∧ t = anyDepth then t :: rest else s :: t :: rest

/-- Makes a list of segments relative to the root: an empty first segment is dropped, and a glob of
one segment is looked for at every depth. -/
def anchor (segments : List (List Char)) : List (List Char) :=
  match segments with
  | [] :: rest => rest
  | [s] => if s = anyDepth then [s] else [anyDepth, s]
  | [s, []] => if s = anyDepth then [s, []] else [anyDepth, s, []]
  | _ => segments

/-- A final slash asks for everything below. -/
def closeDirectory (segments : List (List Char)) : List (List Char) :=
  match segments.reverse with
  | [] :: s :: rest => (anyDepth :: s :: rest).reverse
  | _ => segments

/-- A slash. -/
def slash : Pattern := .char '/'

/-- Any characters of one line. -/
def anyText : Pattern := .many .inLine

/-- Everything below a match, or nothing. -/
def belowOrEnd : Pattern := .optional (.seq slash anyText)

/-- A piece of a glob: the tokens of a name, or a pattern that stands for segments and slashes. -/
inductive Piece where
  | name (tokens : List Token)
  | fixed (p : Pattern)
  deriving DecidableEq, Repr

/-- The pattern of a piece. -/
def Piece.pattern : Piece → Except SegmentFault Pattern
  | .name tokens => (tokens.mapM Token.pattern).map .concat
  | .fixed p => .ok p

/-- The piece of a segment that is not `**`. A lone `*` stands for a name that is not empty. -/
def namePiece (segment : List Char) : Except SegmentFault Piece :=
  if segment = ['*'] then .ok (.fixed (.atLeastOne .notSlash))
  else (segmentTokens segment).map .name

/-- The pieces of the segments from one on. `first` holds at the first segment, and `needSlash`
when a slash has to come before the next name. -/
def pieces : Bool → Bool → List (List Char) → Except SegmentFault (List Piece)
  | _, _, [] => .ok []
  | first, needSlash, s :: rest =>
    let last := rest.isEmpty
    if s = anyDepth then
      if first && last then .ok [.fixed (.seq (.atLeastOne .notSlash) belowOrEnd)]
      else if first then
        (pieces false false rest).map (.fixed (.optional (.seq (.atLeastOne .inLine) slash)) :: ·)
      else if last then .ok [.fixed (.seq slash anyText)]
      else
        (pieces false true rest).map (.fixed (.optional (.seq slash (.atLeastOne .inLine))) :: ·)
    else do
      let name ← namePiece s
      let others ← pieces false true rest
      return (if needSlash then [.fixed slash] else []) ++ name ::
        (if last then [.fixed belowOrEnd] else []) ++ others

/-- The pattern of a glob that is given by its segments. All escapes are looked at before the first
set of characters is. -/
def ofSegments (segments : List (List Char)) : Except SegmentFault Pattern :=
  if segments = [anyDepth, []] then
    .ok (.concat [.atLeastOne .inLine, slash, anyText])
  else do
    let found ← pieces true false (closeDirectory (anchor segments))
    return .concat (← found.mapM Piece.pattern)

/-- The fault of a glob with a faulty segment. -/
def Fault.ofSegment (glob : String) : SegmentFault → Fault
  | .danglingEscape => .malformed glob
  | .reversedRange => .reversedRange

/-- What a glob matches, if anything: a glob that is empty, a comment, a single slash or negated
matches nothing, though a negated one has to be well formed. -/
def compile (glob : String) : Except Fault (Option Pattern) :=
  let cs := strip glob.toList
  match cs with
  | [] => .ok none
  | '#' :: _ => .ok none
  | ['/'] => .ok none
  | c :: rest =>
    let negated := c == '!'
    let segments := collapse (Text.split '/' (if negated then rest else cs))
    if segments = [[]] then .error (.malformed glob)
    else
      match ofSegments segments with
      | .ok p => .ok (if negated then none else some p)
      | .error f => .error (.ofSegment glob f)

/-- One leading slash, or else one leading `./`, does not count. -/
def unanchored : List Char → List Char
  | '/' :: rest => rest
  | '.' :: '/' :: rest => rest
  | cs => cs

/-- The leading slices of a list of parts, the shortest first. -/
def slices (parts : List (List Char)) : List (List (List Char)) :=
  (List.range parts.length).map fun i => parts.take (i + 1)

/-- Whether a glob matches a path of the given parts or one of the directories on the way to it. -/
def isMatch (glob : String) (parts : List String) : Except Fault Bool := do
  match ← compile glob with
  | none => return false
  | some p =>
    return (slices (parts.map String.toList)).any fun slice =>
      p.accepts (unanchored (Text.join '/' slice))

end PlaceMap.Glob
