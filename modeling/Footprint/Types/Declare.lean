import Footprint.Node
import Footprint.Types.Table

/-!
# Declarations of types

How struct, union, typedef and enum declarations come into the type table.  A
struct or union is entered under its tag with the word `struct` or `union`.
One without a tag goes by its type spelling, and without that by its number.  A
typedef of a struct enters the struct too.  Members keep their types with
typedefs resolved as far as they are known at that moment.
-/

namespace Footprint

/-- The start of the name of a struct that has neither tag nor type spelling. -/
def anonymousStart : String := "__anon_struct_"

namespace TypeTable

/-- The name a struct or union is entered under. -/
def structName (n : Node) : String :=
  let word := if n.kind = .unionDecl then "union" else "struct"
  let spelled := (n.info.type.map NodeType.spelling).getD ""
  if !n.spelling.isEmpty then word ++ " " ++ n.spelling
  else if !spelled.isEmpty then
    let t := TypeName.normalize spelled
    if Text.starts "struct " t || Text.starts "union " t then t else word ++ " " ++ t
  else anonymousStart ++ toString (n.info.hash.getD 0)

/-- Enters a typedef, unless its name is empty or it names a struct without a name. -/
def nameStruct (T : TypeTable) (name target : String) : TypeTable :=
  if name.isEmpty || Text.starts anonymousStart target then T
  else { T with aliases := T.aliases.set (TypeName.normalize name) target }

/-- The member declarations of a struct. -/
def fieldsOf (n : Node) : List Node := n.children.filter fun c => c.kind = .fieldDecl

/-- The types of the members that have one. -/
def memberTypesOf (T : TypeTable) (n : Node) : List String :=
  ((fieldsOf n).map fun c => (c.info.type.map NodeType.spelling).getD "").filterMap fun t =>
    if t.isEmpty then none else some (T.resolveAlias t)

/-- The struct that a declaration defines. -/
def recordOf (T : TypeTable) (n : Node) : Record :=
  { name := structName n, memberTypes := T.memberTypesOf n,
    memberNames := (fieldsOf n).map Node.spelling }

/-- Enters a struct or union. -/
def define (T : TypeTable) (n : Node) : Record × TypeTable :=
  let r := T.recordOf n
  (r, { T with structs := T.structs.set r.name r })

/-- The node declares a struct or union. -/
def declaresStruct (n : Node) : Bool := n.kind = .structDecl || n.kind = .unionDecl

/-- Enters a struct, union or typedef declaration, and gives the struct if there is one. -/
def declare (T : TypeTable) (n : Node) : Option Record × TypeTable :=
  if n.kind = .typedefDecl then
    match n.declaration.filter declaresStruct with
    | some d =>
      let (r, T) := (T.nameStruct n.spelling (structName d)).define d
      (some r, T)
    | none =>
      let target := n.info.underlying.getD ""
      if n.spelling.isEmpty || target.isEmpty then (none, T)
      else
        (none, { T with
          aliases := T.aliases.set (TypeName.normalize n.spelling) (TypeName.normalize target) })
  else
    let (r, T) := T.define n
    (some r, T)

/-- The name that a declaration gives to a struct.  A typedef is entered on the way. -/
def resolveName (T : TypeTable) (n : Node) : String × TypeTable :=
  if n.kind = .typedefDecl then
    let name := structName (n.declaration.getD n)
    (name, T.nameStruct n.spelling name)
  else (structName n, T)

/-- Enters an enum: its name and its name after the word `enum` are built-in types from now on. -/
def declareEnum (T : TypeTable) (n : Node) : TypeTable :=
  if n.spelling.isEmpty then T
  else { T with enums := (T.enums.insert ("enum " ++ n.spelling)).insert n.spelling }

/-- The names that enums added and that were no built-in types before. -/
def addedNames (T : TypeTable) : List String :=
  T.enums.toList.filter fun n => !builtinTypes.contains n

end TypeTable

end Footprint
