/-
Writing JSON values: compactly, so that the reader gives the value back, and as an excerpt for an
error message, which keeps the two ends of a long value.
-/
import PlaceMap.Json
import PlaceMap.Text.Quoted

namespace PlaceMap.Json

/-- A character inside a JSON string. -/
def escapeChar (c : Char) : List Char :=
  if c = '"' ∨ c = '\\' then ['\\', c]
  else if c.toNat < 0x20 then '\\' :: 'u' :: Text.hexDigits 4 c.toNat
  else [c]

/-- A JSON string. -/
def writeString (s : String) : String :=
  String.ofList ('"' :: s.toList.flatMap escapeChar ++ ['"'])

/-- A number in the notation that the reader accepts. -/
def writeNumber : Number → String
  | .nan => "NaN"
  | .infinite negative => if negative then "-Infinity" else "Infinity"
  | x => x.toText

mutual

/-- Writes a value without blanks. -/
def write : Json → String
  | .null => "null"
  | .bool b => if b then "true" else "false"
  | .int i => toString i
  | .real x => writeNumber x
  | .str s => writeString s
  | .arr items => "[" ++ String.intercalate "," (writeItems items) ++ "]"
  | .obj fields => "\x7b" ++ String.intercalate "," (writeFields fields) ++ "\x7d"

/-- Writes the items of an array. -/
def writeItems : List Json → List String
  | [] => []
  | v :: rest => write v :: writeItems rest

/-- Writes the fields of an object. -/
def writeFields : List (String × Json) → List String
  | [] => []
  | (name, v) :: rest => (writeString name ++ ":" ++ write v) :: writeFields rest

end

mutual

/-- Writes a value for a message: texts in quotes, and a blank after each separator. -/
def describe : Json → String
  | .null => "None"
  | .bool b => if b then "True" else "False"
  | .int i => toString i
  | .real x => x.toText
  | .str s => Text.quoted s
  | .arr items => "[" ++ String.intercalate ", " (describeItems items) ++ "]"
  | .obj fields => "\x7b" ++ String.intercalate ", " (describeFields fields) ++ "\x7d"

/-- Describes the items of an array. -/
def describeItems : List Json → List String
  | [] => []
  | v :: rest => describe v :: describeItems rest

/-- Describes the fields of an object. -/
def describeFields : List (String × Json) → List String
  | [] => []
  | (name, v) :: rest => (Text.quoted name ++ ": " ++ describe v) :: describeFields rest

end

/-- The name of a value's type in messages. -/
def typeName : Json → String
  | .null => "NoneType"
  | .bool _ => "bool"
  | .int _ => "int"
  | .real _ => "float"
  | .str _ => "str"
  | .arr _ => "list"
  | .obj _ => "dict"

/-- The longest leading stretch of at most `room` octets. -/
def takeOctets : Nat → List Char → List Char
  | _, [] => []
  | room, c :: cs => if c.utf8Size ≤ room then c :: takeOctets (room - c.utf8Size) cs else []

/-- The greatest size of an excerpt that is shown whole, in octets. -/
def excerptSize : Nat := 50

/-- A value for a message. Of a description longer than `excerptSize` octets only the first 25 and
the last 24 are kept, cut between characters. -/
def excerpt (v : Json) : String :=
  let text := describe v
  if text.utf8ByteSize ≤ excerptSize then text
  else
    let cs := text.toList
    String.ofList
      (takeOctets 25 cs ++ ['.', '.', '.'] ++ (takeOctets 24 cs.reverse).reverse)

end PlaceMap.Json
