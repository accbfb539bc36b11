/-
Cutting a text at a separator. Between `n` separators stand `n + 1` pieces, some of which may be
empty, so that joining the pieces gives the text back.
-/
namespace PlaceMap.Text

/-- The pieces between the separators, in order; never the empty list. -/
def split (sep : Char) : List Char → List (List Char)
  | [] => [[]]
  | c :: cs =>
    if c = sep then [] :: split sep cs
    else
      match split sep cs with
      | [] => [[c]]
      | piece :: rest => (c :: piece) :: rest

/-- The pieces with one separator between each two neighbours. -/
def join (sep : Char) : List (List Char) → List Char
  | [] => []
  | [piece] => piece
  | piece :: rest => piece ++ sep :: join sep rest

/-- `split` on texts. -/
def splitText (sep : Char) (s : String) : List String :=
  (split sep s.toList).map String.ofList

end PlaceMap.Text
