/-
JSON values. Integers keep every digit, other numbers are floating-point numbers, and an object is
a list of fields in the order in which they were first written.
-/
import PlaceMap.Number

namespace PlaceMap

/-- A JSON value. -/
inductive Json where
  | null
  | bool (b : Bool)
  | int (i : Int)
  | real (x : Number)
  | str (s : String)
  | arr (items : List Json)
  | obj (fields : List (String × Json))
  deriving Repr, Inhabited

namespace Json

/-- The fields of an object. -/
abbrev Fields := List (String × Json)

namespace Fields

/-- The value of a field. -/
def find? (fields : Fields) (key : String) : Option Json :=
  (List.find? (fun field => field.1 == key) fields).map (·.2)

/-- Sets a field: a known key keeps its place, a new one goes to the end. -/
def insert : Fields → String → Json → Fields
  | [], key, value => [(key, value)]
  | (k, v) :: rest, key, value =>
    if k = key then (k, value) :: rest else (k, v) :: insert rest key value

end Fields

end Json

end PlaceMap
