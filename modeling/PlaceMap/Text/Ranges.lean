/-
Sets of characters given by ranges of code points, as tables of a property list them.
-/
namespace PlaceMap.Text

/-- Ranges of code points with both ends included. -/
abbrev Ranges := List (Nat × Nat)

/-- Whether a character lies in one of the ranges. -/
def Ranges.holds (rs : Ranges) (c : Char) : Bool :=
  rs.any fun range => range.1 ≤ c.toNat && c.toNat ≤ range.2

end PlaceMap.Text
