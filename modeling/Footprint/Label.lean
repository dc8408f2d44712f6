import Footprint.Json.Basic

/-!
# Labels

The name of a function or of a parameter.  In C it is a text.  In a
configuration it may be any scalar, so a number or a truth value is a name too.
Names that are equal as numbers are one name, whatever their form: `Label.key`
is the same for them.
-/

namespace Footprint

/-- A name. -/
inductive Label where
  | text (s : String)
  | whole (i : Int)
  | flag (b : Bool)
  | real (d : Double)
deriving Repr, DecidableEq, Inhabited

/-- What a name is told from others by. -/
inductive LabelKey where
  | text (s : String)
  | whole (i : Int)
  | real (d : Double)
deriving Repr, DecidableEq, Inhabited

namespace Label

/-- The text of a name. -/
def plain : Label → String
  | .text s => s
  | .whole i => toString i
  | .flag b => if b then "True" else "False"
  | .real d => d.text

/-- What the name is told from others by. -/
def key : Label → LabelKey
  | .text s => .text s
  | .whole i => .whole i
  | .flag b => .whole (if b then 1 else 0)
  | .real d =>
    match d.toInt? with
    | some i => .whole i
    | none => .real d

/-- The name that a data value is, if it is a scalar. -/
def ofJson? : Json → Option Label
  | .str s => some (.text s)
  | .int i => some (.whole i)
  | .bool b => some (.flag b)
  | .real d => some (.real d)
  | _ => none

/-- The data value of a name. -/
def toJson : Label → Json
  | .text s => .str s
  | .whole i => .int i
  | .flag b => .bool b
  | .real d => .real d

end Label

end Footprint
