import Footprint.NameSet
import Footprint.Table
import Footprint.Types.Name

/-!
# The type table

The table holds the structs and unions of a project with their members, the
typedefs, and the enums, which count as built-in types.  It also holds the
sizes found so far.

An alias is resolved one step at a time: `decode` replaces a name by what its
typedef names, and does not look at that again.
-/

namespace Footprint

/-- A struct or union.  A member without a type spelling has a name and no type. -/
structure Record where
  name : String
  /-- The types of the members, in order. -/
  memberTypes : List String := []
  /-- The names of the members, in order. -/
  memberNames : List String := []
  /-- The number of blocks, once it is known. -/
  size : Nat := 0
deriving Repr, DecidableEq, Inhabited

/-- The members that have both a type and a name. -/
def Record.members (r : Record) : List (String × String) := r.memberTypes.zip r.memberNames

/-- What is known about the types of a project. -/
structure TypeTable where
  /-- The structs and unions, by full name. -/
  structs : Table String Record := {}
  /-- The typedefs: the normal form of the name, and what it names. -/
  aliases : Table String String := {}
  /-- The names that enums added to the built-in types. -/
  enums : NameSet := {}
  /-- The sizes found so far. -/
  sizes : Table String Nat := {}
  /-- The types whose size was ever asked for. -/
  visited : NameSet := {}
deriving Repr, DecidableEq, Inhabited

/-- What a variable is, seen from its type. -/
inductive VarKind where
  | pointer
  | record
  | array
  | builtin
deriving Repr, DecidableEq, Inhabited

/-- The built-in types. -/
def builtinTypes : List String :=
  ["void", "char", "signed char", "unsigned char", "short", "unsigned short", "signed short",
   "int", "signed", "signed int", "unsigned int", "long", "unsigned long", "signed long",
   "long long", "unsigned long long", "signed long long", "float", "double", "long double",
   "_Bool", "bool", "size_t", "ptrdiff_t"]

namespace TypeTable

/-- The name is a built-in type or an enum. -/
def isBuiltin (T : TypeTable) (t : String) : Bool :=
  builtinTypes.contains t || T.enums.contains t

/-- The normal form of a spelling, with a typedef resolved once. -/
def decode (T : TypeTable) (t : String) : String :=
  let t := TypeName.normalize t
  (T.aliases.get? t).getD t

/-- The type is an array. -/
def isArray (T : TypeTable) (t : String) : Bool := TypeName.endsInBracket (T.decode t)

/-- The type is a struct or union of the table. -/
def isStruct (T : TypeTable) (t : String) : Bool := T.structs.contains (T.decode t)

/-- The type is a pointer. -/
def isPointer (T : TypeTable) (t : String) : Bool := TypeName.endsInStar (T.decode t)

/-- The type takes one block: a built-in type or a pointer, with no typedef in between. -/
def isBasic (T : TypeTable) (t : String) : Bool :=
  let t := TypeName.normalize t
  T.isBuiltin t || TypeName.endsInStar t

/-- What a variable of the type is. -/
def kindOf (T : TypeTable) (t : String) : VarKind :=
  let t := T.decode t
  if TypeName.endsInStar t then .pointer
  else if TypeName.endsInBracket t then .array
  else if T.structs.contains t then .record
  else .builtin

/-- The element type and the length of an array type. -/
def element (T : TypeTable) (t : String) : Except Fault (String × Nat) :=
  let name := T.decode t
  if T.isArray name then
    let (base, text) := TypeName.arrayParts name
    (TypeName.arrayLength text).map fun n => (base, n)
  else .error (.notArray t)

/-- The struct that a decoded name stands for.  A bare tag is looked up as a struct tag. -/
def recordFor? (T : TypeTable) (t : String) : Option Record :=
  match T.structs.get? t with
  | some r => some r
  | none => if Text.starts "struct " t then none else T.structs.get? ("struct " ++ t)

/-- Follows typedefs from a name until there is none, or the chain comes back.  The bound is the
number of steps left. -/
def chase (T : TypeTable) : Nat → List String → String → String
  | 0, _, t => t
  | bound + 1, seen, t =>
    match T.aliases.get? t with
    | some target => if seen.contains t then t else T.chase bound (t :: seen) target
    | none => t

/-- The spelling with the typedef under its stars and its last bracket resolved to the end. -/
def resolveAlias (T : TypeTable) (t : String) : String :=
  let (t, stars) := TypeName.splitStars (TypeName.normalize t)
  let (base, bracket) := TypeName.splitBracket t
  let base := TypeName.normalize (T.chase (T.aliases.entries.length + 1) [] base)
  base ++ bracket ++ String.ofList (List.replicate stars '*')

end TypeTable

end Footprint
