import Footprint.Files.Tree

/-!
# Syntax trees of small files

Declarations and expressions as a parser gives them, with their tokens, and a
project of one file.  Theorems are tried on files that are put together from
these.
-/

namespace Footprint.Walk

/-- The declaration of a name, with the given children. -/
def declaredWith (kind : NodeKind) (name type : String) (shape : TypeShape)
    (children : List Node) : Node :=
  .mk { kind, spelling := name, file := some "/p/a.c",
        type := some { spelling := type, shape, canonical := shape } } children none

/-- A declaration without children. -/
def declarationOf (kind : NodeKind) (name type : String) (shape : TypeShape) : Node :=
  declaredWith kind name type shape []

/-- The declaration `int name`. -/
def intVar (name : String) : Node := declarationOf .varDecl name "int" .other

/-- The declaration `int *name`. -/
def intPointer (name : String) : Node := declarationOf .varDecl name "int *" .pointer

/-- The definition of a struct. -/
def structOf (tag : String) (fields : List Node) : Node :=
  .mk { kind := .structDecl, spelling := tag, file := some "/p/a.c" } fields none

/-- The name `name` for a type. -/
def typedefOf (name type : String) : Node :=
  .mk { kind := .typedefDecl, spelling := name, file := some "/p/a.c", underlying := some type } []
    none

/-- The definition of a function with the given children. -/
def definedAs (name : String) (children : List Node) : Node :=
  .mk { kind := .functionDecl, spelling := name, file := some "/p/a.c", isDefinition := true }
    children none

/-- The tree of a variable. -/
def named (name : String) : Node :=
  .mk { kind := .declRef, spelling := name, tokens := [name] } [] none

/-- The tree of `1`. -/
def one : Node := .mk { kind := .integer, tokens := ["1"] } [] none

/-- The tree of `l op r`. -/
def between (op : String) (l r : Node) : Node :=
  .mk { kind := .binary, tokens := l.tokens ++ op :: r.tokens } [l, r] none

/-- The tree of `op c`. -/
def leading (op : String) (c : Node) : Node :=
  .mk { kind := .unary, tokens := op :: c.tokens } [c] none

/-- The tree of `c op`. -/
def following (op : String) (c : Node) : Node :=
  .mk { kind := .unary, tokens := c.tokens ++ [op] } [c] none

/-- The tree of an element of an array. -/
def elementOf (x : String) (index : Node) : Node :=
  .mk { kind := .subscript, tokens := x :: "[" :: index.tokens ++ ["]"] } [named x, index] none

/-- A project of one file. -/
def fileOf (tree : List Node) : Files where
  here := "/"
  entries := [("p", .folder [("a.c", .file { tree })])]

end Footprint.Walk
