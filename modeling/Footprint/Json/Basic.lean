import Footprint.Double
import Footprint.Table
import Footprint.Text.Quoted

/-!
# Data values

The values of the JSON format, with whole numbers of any size kept apart from
numbers with a fraction or an exponent.  An object is a table, so a repeated
key has its last value at its first place.
-/

namespace Footprint

/-- A value of the data format. -/
inductive Json where
  | null
  | bool (b : Bool)
  | int (i : Int)
  | real (d : Double)
  | str (s : String)
  | arr (items : List Json)
  | obj (fields : List (String × Json))
deriving Repr, Inhabited

namespace Json

/-- The value of a field of an object. -/
def field? (j : Json) (key : String) : Option Json :=
  match j with
  | .obj fields => Table.lookup key fields
  | _ => none

/-- What counts as yes: everything but null, false, zero and what is empty. -/
def truthy : Json → Bool
  | .null => false
  | .bool b => b
  | .int i => i ≠ 0
  | .real d => !d.isZero
  | .str s => !s.isEmpty
  | .arr items => !items.isEmpty
  | .obj fields => !fields.isEmpty

/-! ## The text of a value inside a name -/

mutual

/-- A value inside a list or an object: texts stand in quotes. -/
def shown : Json → String
  | .null => "None"
  | .bool b => if b then "True" else "False"
  | .int i => toString i
  | .real d => d.text
  | .str s => Text.quoted s
  | .arr items => "[" ++ String.intercalate ", " (shownItems items) ++ "]"
  | .obj fields => "\x7b" ++ String.intercalate ", " (shownFields fields) ++ "\x7d"

/-- The items of a list. -/
def shownItems : List Json → List String
  | [] => []
  | j :: rest => shown j :: shownItems rest

/-- The fields of an object. -/
def shownFields : List (String × Json) → List String
  | [] => []
  | (k, j) :: rest => (Text.quoted k ++ ": " ++ shown j) :: shownFields rest

end

/-- The text of a value: a text is itself. -/
def plain : Json → String
  | .str s => s
  | j => j.shown

end Json

end Footprint
