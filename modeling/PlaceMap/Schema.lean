/-
Checking JSON values against a schema. A check gives the value that it has read, or every violation
that it has found, each with the place where it was found and the value that stands there.
-/
import PlaceMap.Json.Printer

namespace PlaceMap.Schema

/-- What is wrong with a value. -/
inductive Problem where
  | missing
  | extra
  | notModel (model : String)
  | notString
  | notList
  | notTuple
  | notDictionary
  | notBoolean
  | unclearBoolean
  | notInteger
  | unclearInteger
  | integerTooLarge
  | fractional
  | notFinite
  | tooDeep
  deriving DecidableEq, Repr

/-- The tag of a problem. -/
def Problem.tag : Problem → String
  | .missing => "missing"
  | .extra => "extra_forbidden"
  | .notModel _ => "model_type"
  | .notString => "string_type"
  | .notList => "list_type"
  | .notTuple => "tuple_type"
  | .notDictionary => "dict_type"
  | .notBoolean => "bool_type"
  | .unclearBoolean => "bool_parsing"
  | .notInteger => "int_type"
  | .unclearInteger => "int_parsing"
  | .integerTooLarge => "int_parsing_size"
  | .fractional => "int_from_float"
  | .notFinite => "finite_number"
  | .tooDeep => "recursion_depth_exceeded"

/-- The words for a problem. -/
def Problem.text : Problem → String
  | .missing => "Field required"
  | .extra => "Extra inputs are not permitted"
  | .notModel model => "Input should be a valid dictionary or instance of " ++ model
  | .notString => "Input should be a valid string"
  | .notList => "Input should be a valid list"
  | .notTuple => "Input should be a valid tuple"
  | .notDictionary => "Input should be a valid dictionary"
  | .notBoolean => "Input should be a valid boolean"
  | .unclearBoolean => "Input should be a valid boolean, unable to interpret input"
  | .notInteger => "Input should be a valid integer"
  | .unclearInteger => "Input should be a valid integer, unable to parse string as an integer"
  | .integerTooLarge => "Unable to parse input string as an integer, exceeded maximum size"
  | .fractional => "Input should be a valid integer, got a number with a fractional part"
  | .notFinite => "Input should be a finite number"
  | .tooDeep => "Recursion error - maximum validation depth exceeded"

/-- A problem, the keys and indices that lead to it, and the value that stands there. -/
structure Violation where
  location : List String
  problem : Problem
  value : Json
  deriving Repr

namespace Violation

/-- A key or index in a location; a key with a dot is set off. -/
def locationItem (item : String) : String :=
  if item.toList.contains '.' then String.ofList ('\x60' :: item.toList ++ ['\x60']) else item

/-- The line that says where a violation stands; there is none at the top. -/
def locationLine (v : Violation) : List String :=
  if v.location.isEmpty then []
  else [String.intercalate "." (v.location.map locationItem)]

/-- The lines of a violation: its place and its problem. -/
def summary (v : Violation) : List String :=
  v.locationLine ++ [s!"  {v.problem.text} [type={v.problem.tag}]"]

/-- The lines of a violation with an excerpt of the value. The last line refers to the explanation
of the problem, which stands below the address `help`. -/
def details (help : String) (v : Violation) : List String :=
  v.locationLine ++
    [s!"  {v.problem.text} [type={v.problem.tag}, input_value={v.value.excerpt}, " ++
        s!"input_type={v.value.typeName}]",
      "    For further information visit " ++ help ++ v.problem.tag]

end Violation

/-- All violations found in a value that should be read as `model`. -/
structure Report where
  model : String
  violations : List Violation
  deriving Repr

namespace Report

/-- The line that counts the violations. -/
def heading (r : Report) : String :=
  let count := r.violations.length
  let noun := if count = 1 then "error" else "errors"
  s!"{count} validation {noun} for {r.model}"

/-- The text of a report without the values. -/
def summary (r : Report) : String :=
  String.intercalate "\n" (r.heading :: r.violations.flatMap Violation.summary)

/-- The full text of a report. -/
def details (help : String) (r : Report) : String :=
  String.intercalate "\n" (r.heading :: r.violations.flatMap (Violation.details help))

end Report

/-- The outcome of a check. -/
abbrev Checked (α : Type) := Except (List Violation) α

namespace Checked

/-- A single violation at the place of the check. -/
def refuse {α : Type} (problem : Problem) (value : Json) : Checked α :=
  .error [⟨[], problem, value⟩]

/-- Says that a check was made at a place below. -/
def within {α : Type} (place : List String) : Checked α → Checked α
  | .ok a => .ok a
  | .error vs => .error (vs.map fun v => { v with location := place ++ v.location })

/-- Joins two checks, with the violations of both. -/
def both {α β γ : Type} (f : α → β → γ) : Checked α → Checked β → Checked γ
  | .ok a, .ok b => .ok (f a b)
  | .ok _, .error ws => .error ws
  | .error vs, .ok _ => .error vs
  | .error vs, .error ws => .error (vs ++ ws)

/-- Applies a checked function to a checked value. -/
def apply {α β : Type} (f : Checked (α → β)) (a : Checked α) : Checked β := both (· ·) f a

/-- Makes a check of every item, at its index. -/
def items {α : Type} (check : Json → Checked α) (start : Nat) : List Json → Checked (List α)
  | [] => .ok []
  | v :: rest => both List.cons (within [toString start] (check v)) (items check (start + 1) rest)

/-- Keeps a value if there are no further violations. -/
def guarded {α : Type} (a : Checked α) (vs : List Violation) : Checked α :=
  both (fun a (_ : Unit) => a) a (if vs.isEmpty then .ok () else .error vs)

/-- The outcome of a check of a whole value. -/
def report {α : Type} (model : String) : Checked α → Except Report α
  | .ok a => .ok a
  | .error vs => .error ⟨model, vs⟩

end Checked

/-- Fields that are not known, in the order of the object. -/
def unknown (known : String → Bool) (fields : Json.Fields) : List Violation :=
  (fields.filter fun field => !known field.1).map fun field => ⟨[field.1], .extra, field.2⟩

/-- A field that has to be there; `whole` is the object. -/
def required {α : Type} (whole : Json) (fields : Json.Fields) (key : String)
    (check : Json → Checked α) : Checked α :=
  Checked.within [key] <|
    match fields.find? key with
    | some v => check v
    | none => .refuse .missing whole

/-- A field that may be absent. -/
def optional {α : Type} (fields : Json.Fields) (key : String) (default : α)
    (check : Json → Checked α) : Checked α :=
  match fields.find? key with
  | some v => Checked.within [key] (check v)
  | none => .ok default

/-- Accepts a null besides what `check` accepts. -/
def nullable {α : Type} (check : Json → Checked α) : Json → Checked (Option α)
  | .null => .ok none
  | v => (check v).map some

/-- Accepts texts. -/
def string : Json → Checked String
  | .str s => .ok s
  | v => .refuse .notString v

/-- Accepts arrays of what `check` accepts. -/
def list {α : Type} (check : Json → Checked α) : Json → Checked (List α)
  | .arr vs => Checked.items check 0 vs
  | v => .refuse .notList v

/-- Accepts arrays of what `check` accepts, under the name of a tuple. -/
def tuple {α : Type} (check : Json → Checked α) : Json → Checked (List α)
  | .arr vs => Checked.items check 0 vs
  | v => .refuse .notTuple v

/-- Accepts what one of two checks accepts. If neither does, the violations of both are given, each
under the label of its check. -/
def either {α : Type} (first second : String) (check check' : Json → Checked α) (v : Json) :
    Checked α :=
  match check v, check' v with
  | .ok a, _ => .ok a
  | .error _, .ok a => .ok a
  | .error vs, .error ws =>
    Checked.both (fun a _ => a) (Checked.within [first] (.error vs))
      (Checked.within [second] (.error ws : Checked α))

end PlaceMap.Schema
