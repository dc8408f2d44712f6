import Footprint.Types.Table

/-!
# Variables

A variable of the analysed program, or a part of one, with what the analysis
finds out about it: where its parts are, what it points to, and which functions
read it before writing it and which write it.
-/

namespace Footprint

/-- Where a variable is declared: in a file, as a parameter, in a body, or as a result. -/
inductive Domain where
  | global
  | param
  | inner
  | result
deriving Repr, DecidableEq, Inhabited

/-- A part of a variable: a member, an element, or the element that stands for every element whose
index is not known. -/
inductive Slot where
  | member (name : String)
  | element (index : Nat)
  | anyElement
deriving Repr, DecidableEq, Inhabited

/-- How a part is written after the name of the whole. -/
def Slot.suffix : Slot → String
  | .member m => "." ++ m
  | .element i => "[" ++ toString i ++ "]"
  | .anyElement => "[?]"

/-- A variable. -/
structure Variable where
  /-- The name.  Parameters and locals start with their function in angle brackets. -/
  name : String
  /-- The type spelling, which the analysis may change. -/
  type : String
  /-- The type spelling as it was declared. -/
  declared : String := type
  kind : VarKind
  domain : Domain := .global
  isPointer : Bool := false
  /-- The address, or zero before there is one. -/
  address : Int := 0
  /-- The addresses of the parts that have one, oldest first. -/
  parts : Table Slot Nat := {}
  /-- A pointer parameter that is used as an array. -/
  usedAsArray : Bool := false
  /-- The least array length that such a use needs. -/
  usedLength : Int := 0
  hidden : Bool := false
  /-- What a pointer was last made to point to. -/
  target : Option Int := none
  /-- The functions that read the variable before they write it. -/
  readers : NameSet := {}
  /-- The functions that write the variable. -/
  writers : NameSet := {}
deriving Repr, DecidableEq, Inhabited

namespace Variable

/-- The variable after a read by `f`.  A read after a write by the same function does not count. -/
def markRead (v : Variable) (f : String) : Variable :=
  if v.readers.contains f || v.writers.contains f then v
  else { v with readers := v.readers.insert f }

/-- The variable after a write by `f`. -/
def markWrite (v : Variable) (f : String) : Variable :=
  if v.writers.contains f then v else { v with writers := v.writers.insert f }

/-- What the pointer was last made to point to, if that can be an address. -/
def liveTarget (v : Variable) : Option Int := v.target.filter fun a => 0 ≤ a

end Variable

end Footprint
