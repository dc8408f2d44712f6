import Footprint.Types.Table

/-!
# Sizes

The size of a type is the number of blocks it stands for.  A built-in type or a
pointer counts one.  An array counts one for itself and its element size for
each of its elements.  A struct counts one for itself and the sizes of its
members.  A typedef has the size of what it names.

Sizes of structs and typedefs are written into the table.  A struct that is met
again while its size is being found has no size, and neither has one whose
members could not be sized before.  A typedef of itself would expand for ever.
The bound of `sizeWithin` counts nested types, and `sizeBound` is more than any
expansion that ends can need: a typedef is expanded at most twice and a struct
entered at most once on the way down, and between these the spelling gets
shorter.
-/

namespace Footprint

/-- A step on the type table.  What it changed before a fault stays changed. -/
abbrev TypeM := EStateM Fault TypeTable

/-- The result of a step that changes nothing. -/
def orFault {σ α : Type} : Except Fault α → EStateM Fault σ α
  | .ok a => pure a
  | .error e => throw e

namespace TypeTable

/-- Sets the size of a struct. -/
def setSize (T : TypeTable) (name : String) (f : Nat → Nat) : TypeTable :=
  match T.structs.get? name with
  | some r => { T with structs := T.structs.set name { r with size := f r.size } }
  | none => T

/-- Adds the sizes of members to the size of a struct, one after the other. -/
def addMembers (sizeOf : String → TypeM Nat) (name : String) : List String → TypeM Unit
  | [] => pure ()
  | t :: rest => do
    let n ← sizeOf t
    modify fun T => T.setSize name (· + n)
    addMembers sizeOf name rest

/-- The size of a type whose expansion is no deeper than the bound. -/
def sizeWithin : Nat → String → TypeM Nat
  | 0, _ => throw .endless
  | bound + 1, t => do
    let t := TypeName.normalize t
    let T ← get
    if TypeName.endsInStar t || T.isBuiltin t then return 1
    else if TypeName.endsInBracket t then
      let (base, text) := TypeName.arrayParts t
      let n ← orFault (TypeName.arrayLength text)
      let s ← sizeWithin bound base
      return 1 + s * n
    else if TypeName.inParens t then sizeWithin bound (TypeName.inside t)
    else if !TypeName.isClean t then throw (.notClean t)
    else match T.aliases.get? t with
      | some target => do
        let s ← sizeWithin bound target
        modify fun T => { T with visited := T.visited.insert t, sizes := T.sizes.set t s }
        return s
      | none =>
        if T.visited.contains t then
          match T.sizes.get? t with
          | some s => return s
          | none => throw .sizeUnknown
        else do
          modify fun T => { T with visited := T.visited.insert t }
          match T.structs.get? t with
          | none => throw .undefinedType
          | some r => do
            modify fun T => T.setSize t fun _ => 1
            addMembers (sizeWithin bound) t r.memberTypes
            let s := ((← get).structs.get? t).elim 0 Record.size
            modify fun T => { T with sizes := T.sizes.set t s }
            return s

/-- The characters of some spellings, and one more for each. -/
def textWeight (ts : List String) : Nat := total (fun t => t.length + 1) ts

/-- The characters of the member types of all structs, and one more for each. -/
def memberWeight (T : TypeTable) : Nat :=
  total (fun r => textWeight r.memberTypes) T.structs.values

/-- More nested types than an expansion that ends can have. -/
def sizeBound (T : TypeTable) (t : String) : Nat :=
  (TypeName.normalize t).length + 2 * textWeight T.aliases.values + T.memberWeight + 2

/-- The size of a type. -/
def size (t : String) : TypeM Nat := do
  let T ← get
  sizeWithin (T.sizeBound t) t

/-- Finds the sizes of some structs, in order, leaving out those asked for before. -/
def sizeEach : List String → TypeM Unit
  | [] => pure ()
  | name :: rest => do
    let T ← get
    if !T.visited.contains name then
      let _ ← size name
    sizeEach rest

/-- Finds the sizes of all structs of the table, in order. -/
def sizeAll : TypeM Unit := do
  let T ← get
  sizeEach T.structs.keys

end TypeTable

end Footprint
