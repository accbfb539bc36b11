/-
The outline of a table: a tree with a node for every name on the way to a registered tree path,
under which the files and partitions registered there are listed.
-/
import PlaceMap.Table

namespace PlaceMap

/-- An item of an outline. -/
inductive Outline.Item where
  /-- A data file. -/
  | file (path : Path)
  /-- A partition. -/
  | partition (path : Path)
  /-- A name, with what is found below it. -/
  | segment (name : String) (items : List Outline.Item)
  deriving Repr

namespace Outline

/-- The item of that name among some items, if any, with its own items changed; otherwise a new
item of that name comes last. -/
def modifyName (name : String) (f : List Item → List Item) : List Item → List Item
  | [] => [.segment name (f [])]
  | .segment n items :: rest =>
    if n = name then .segment n (f items) :: rest else .segment n items :: modifyName name f rest
  | item :: rest => item :: modifyName name f rest

/-- Adds an item under a tree path, as the last one there. Missing names on the way are added. -/
def insert : TreePath → Item → List Item → List Item
  | [], item, items => items ++ [item]
  | name :: place, item, items => modifyName name (insert place item) items

/-- Tree paths are ordered name by name, and names by their code points. -/
def precedes : TreePath → TreePath → Bool
  | [], _ => true
  | _ :: _, [] => false
  | x :: a, y :: b => if x = y then precedes a b else decide (x < y)

/-- What a table registers, in the order of the tree paths. Of two entries with one tree path, files
come before partitions, and otherwise the order of the table holds. -/
def entries (t : Table) : List (TreePath × Item) :=
  let files := t.fileMap.map fun (file, place) => (place, Item.file file)
  let partitions := t.partitions.map fun (p : Partition) => (p.place, Item.partition p.target)
  (files ++ partitions).mergeSort fun a b => precedes a.1 b.1

/-- The outline of a table. -/
def ofTable (t : Table) : List Item :=
  (entries t).foldl (fun items (place, item) => insert place item items) []

end Outline

end PlaceMap
