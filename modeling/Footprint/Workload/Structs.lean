import Footprint.Files.Tree
import Footprint.Types.Declare
import Footprint.Workload.Basic

/-!
# Declaring types

A header with structs, unions, enums and typedefs is written, and the
declarations of its syntax tree are entered into a type table and sized.  Then
come declarations of the forms that a header does not have: structs without a
tag, a member without a type, and a typedef whose struct is only a name.
-/

namespace Footprint.Workload

/-- The declarations of the header for one number. -/
def headerGroup (i : Nat) : List String :=
  let n := toString i
  ["struct Raw" ++ n ++ " \x7b int a; double b[3]; struct Raw" ++ toString (i - 1) ++
     " *next; \x7d;",
   "typedef struct Raw" ++ n ++ " TRaw" ++ n ++ ";",
   "typedef struct \x7b int x; int y; \x7d Anon" ++ n ++ ";",
   "union U" ++ n ++ " \x7b int a; float b; \x7d;",
   "enum E" ++ n ++ " \x7b E" ++ n ++ "_A, E" ++ n ++ "_B \x7d;",
   "typedef int AliasInt" ++ n ++ ";"]

/-- The text of the header. -/
def headerText (n : Nat) : String :=
  String.intercalate "\n"
    ("enum \x7bANON_A, ANON_B\x7d;" :: (List.range n).flatMap headerGroup)

/-- The number of structs entered so far, and the table. -/
abbrev Entered := Nat × TypeTable

/-- Enters a declaration, and counts it if it is one of a struct. -/
def enter (e : Entered) (n : Node) : Entered :=
  match n.kind with
  | .structDecl | .unionDecl | .typedefDecl =>
    let (r, T) := e.2.declare n
    (e.1 + r.toList.length, T)
  | .enumDecl => (e.1, e.2.declareEnum n)
  | _ => e

/-- A struct declaration with a given type spelling. -/
def typedStruct (spelling : String) : Node :=
  .mk { kind := .structDecl, type := some { spelling, shape := .record, canonical := .record } }
    [] none

/-- Structs of the forms that a header does not have. -/
def oddStructs : List Node :=
  [.mk { kind := .structDecl, hash := some 12345 } [] none,
   typedStruct "Weird",
   typedStruct "struct Already",
   .mk { kind := .structDecl, spelling := "Holder" }
     [.mk { kind := .fieldDecl, spelling := "z",
            type := some { spelling := "int", shape := .other, canonical := .other } } [] none,
      .mk { kind := .fieldDecl, spelling := "w" } [] none] none]

/-- A typedef whose struct is only a name, if the header has structs, and else no struct. -/
def oddTypedef (tree : List Node) : Node :=
  .mk { kind := .typedefDecl, spelling := "BadTD" } []
    (if tree.any fun n => n.kind = .structDecl then
      some (.mk { kind := .structDecl, spelling := "Bad" } [] none)
    else none)

/-- Sizes everything and adds up the sizes. -/
def totalSize : TypeM Nat := do
  TypeTable.sizeAll
  return total Record.size (← get).structs.values

/-- Enters the declarations of a header with `n` groups.  The measures are the number of struct
declarations, the number of structs, and the size of those of the header. -/
def declarations (fs : Files) (dir : String) (n : Nat) : Workload :=
  let path := FileName.join dir "hdr.h"
  let written := [(path, headerText n)]
  let tree := ((fs.file? path).map SourceFile.tree).getD []
  let (count, T) := tree.foldl enter (0, {})
  match totalSize T with
  | .error e T => { measures := .error e, written, types := T }
  | .ok total T =>
    let (count, T) := oddStructs.foldl enter (count, T)
    let (_, T) := T.resolveName (oddTypedef tree)
    match TypeTable.sizeAll T with
    | .error e T => { measures := .error e, written, types := T }
    | .ok _ T =>
      { measures := .ok (counts [count, T.structs.entries.length, total]), written, types := T }

end Footprint.Workload
