/-
Printing an outline: a line for every item, drawn as a tree with guides, and after the tree the
warnings of the table.
-/
import PlaceMap.Outline
import PlaceMap.Outline.Markup
import PlaceMap.Resolver
import PlaceMap.Text.Split

namespace PlaceMap.Outline

/-- The lines of a label. -/
def labelLines (label : List Char) : List String :=
  (Text.split '\n' (label.filter fun c => !Markup.isUnprinted c)).map fun line =>
    String.ofList (Markup.expandTabs line)

/-- The label of an item: what it is and where it stands, or a name. -/
def Item.label : Item → List Char
  | .file path => Markup.styled "[dim]" "file → " path.toText
  | .partition path => Markup.styled "[dim]" "partition → " path.toText
  | .segment name _ => Markup.styled "[bold cyan]" "" name

/-- The guides of an item: before its first line, and before the lines that follow. -/
def guides (last : Bool) : String × String :=
  if last then ("└── ", "    ") else ("├── ", "│   ")

/-- The lines of a label, the first of which has a guide of its own. -/
def guided (first others : String) : List String → List String
  | [] => []
  | line :: rest => (first ++ line) :: rest.map (others ++ ·)

mutual

/-- The lines of an item. -/
def Item.lines (last : Bool) : Item → List String
  | .file path =>
    guided (guides last).1 (guides last).2 (labelLines (Item.label (.file path)))
  | .partition path =>
    guided (guides last).1 (guides last).2 (labelLines (Item.label (.partition path)))
  | .segment name items =>
    guided (guides last).1 (guides last).2 (labelLines (Item.label (.segment name []))) ++
      (lines items).map ((guides last).2 ++ ·)

/-- The lines of some items with one parent. -/
def lines : List Item → List String
  | [] => []
  | item :: rest => item.lines rest.isEmpty ++ lines rest

end

/-- The line above the tree. -/
def heading (t : Table) : String := if t.isGame then "game" else "root"

/-- The lines of a warning. -/
def warningLines (text : String) : List String :=
  labelLines (Markup.headed "[yellow]" "warning:" text)

/-- The outline of a resolver as lines; explanations of warnings stand below the address `help`. -/
def print (help : String) (r : Resolver) : List String :=
  heading r.table :: lines (ofTable r.table) ++
    (r.table.warnings.map (Warning.details help)).flatMap warningLines

end PlaceMap.Outline
