import Footprint.Label
import Footprint.Memory.Basic
import Footprint.Node

/-!
# Functions

A function of the analysed program with what the analysis finds out about it.
One that is known from a configuration only has no body.  Its reads, writes and
pointer assignments are what the configuration says.
-/

namespace Footprint

/-- A function. -/
structure Function where
  name : Label
  /-- The file it is defined in, from the project on. -/
  source : String
  /-- The names of the parameters. -/
  params : List Label := []
  /-- The variables of the parameters, by full name. -/
  vars : Table String VarId := {}
  /-- The names it reads before it writes them. -/
  reads : NameSet := {}
  /-- The names it writes. -/
  writes : NameSet := {}
  /-- The names that are shared with the functions it calls. -/
  shared : NameSet := {}
  /-- Where pointers point when it ends: the address of the pointer, and its target. -/
  pointerEnds : Table Nat (Option Int) := {}
  /-- The configured pointer assignments: the pointer and the target. -/
  configured : List (String × Option String) := []
  /-- The definition. -/
  body : Option Node := none
deriving Repr, Inhabited

/-- The full name of a parameter or a local of a function. -/
def ownedName (function name : String) : String := "<" ++ function ++ ">" ++ name

/-- What the full names of the parameters and locals of a function start with. -/
def ownerStart (function : String) : String := "<" ++ function ++ ">"

/-- The name without the function it belongs to. -/
def bareName (name : String) : String :=
  if Text.starts "<" name then (Text.after? ">" name).getD name else name

end Footprint
