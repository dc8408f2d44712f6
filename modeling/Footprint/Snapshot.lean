import Footprint.Files.Tree
import Footprint.Json.Reader

/-!
# Snapshots

A project comes in as one value of the data format, with the syntax trees of its
files.  A node is an object with short keys: `k` the kind, `s` the spelling, `f`
the file, `p` line and column, `ty` the type, `t` the tokens, `c` the children,
`a` the places of the arguments, `d` whether it is a definition, `r` what it
refers to, `u` the type a typedef names, `h` its number.  Keys that are not there
have a default, and kinds that the analysis does not know are all one.
-/

namespace Footprint.Snapshot

/-! ## Parts of a node -/

/-- The kind of a node by its name. -/
def kindNamed (name : String) : NodeKind :=
  match name with
  | "VAR_DECL" => .varDecl
  | "FUNCTION_DECL" => .functionDecl
  | "STRUCT_DECL" => .structDecl
  | "UNION_DECL" => .unionDecl
  | "TYPEDEF_DECL" => .typedefDecl
  | "ENUM_DECL" => .enumDecl
  | "FIELD_DECL" => .fieldDecl
  | "PARM_DECL" => .paramDecl
  | "TYPE_REF" => .typeRef
  | "DECL_REF_EXPR" => .declRef
  | "MEMBER_REF_EXPR" => .memberRef
  | "ARRAY_SUBSCRIPT_EXPR" => .subscript
  | "CALL_EXPR" => .call
  | "UNARY_OPERATOR" => .unary
  | "BINARY_OPERATOR" => .binary
  | "COMPOUND_ASSIGNMENT_OPERATOR" => .compoundAssign
  | "CONDITIONAL_OPERATOR" => .conditional
  | "PAREN_EXPR" => .paren
  | "CSTYLE_CAST_EXPR" => .cast
  | "UNEXPOSED_EXPR" => .implicit
  | "INTEGER_LITERAL" => .integer
  | _ => .other

/-- The shape of a type by its name. -/
def shapeNamed (name : String) : TypeShape :=
  match name with
  | "POINTER" => .pointer
  | "RECORD" => .record
  | "CONSTANTARRAY" => .array
  | "INCOMPLETEARRAY" => .array
  | "VARIABLEARRAY" => .array
  | "DEPENDENTSIZEDARRAY" => .array
  | _ => .other

/-- The text of a value, empty for anything else. -/
def text : Json → String
  | .str s => s
  | _ => ""

/-- The text of a value, if it is one. -/
def text? : Json → Option String
  | .str s => some s
  | _ => none

/-- The number of a value, if it is one. -/
def int? : Json → Option Int
  | .int i => some i
  | _ => none

/-- The items of a list, none for anything else. -/
def items : Json → List Json
  | .arr js => js
  | _ => []

/-- The type of a node. -/
def typeOf : Json → Option NodeType
  | .arr [spelling, shape, canonical] =>
    some { spelling := text spelling, shape := shapeNamed (text shape),
           canonical := shapeNamed (text canonical) }
  | _ => none

/-- A node with one more field that holds no nodes. -/
def setField (i : NodeInfo) (key : String) (j : Json) : NodeInfo :=
  match key with
  | "k" => { i with kind := kindNamed (text j) }
  | "s" => { i with spelling := text j }
  | "f" => { i with file := text? j }
  | "p" =>
    match j with
    | .arr [line, column] => { i with line := int? line, column := int? column }
    | _ => i
  | "ty" => { i with type := typeOf j }
  | "t" => { i with tokens := (items j).map text }
  | "a" => { i with arguments := some ((items j).filterMap int? |>.map Int.toNat) }
  | "d" => { i with isDefinition := j.truthy }
  | "r" => { i with referenced := text? j }
  | "h" => { i with hash := int? j }
  | _ => i

/-! ## Nodes -/

mutual

/-- The node of a value. -/
def node : Json → Node
  | .obj fields => nodeWith { kind := .other } [] none fields
  | _ => .mk { kind := .other } [] none

/-- A node with more fields. -/
def nodeWith (i : NodeInfo) (children : List Node) (declaration : Option Node) :
    List (String × Json) → Node
  | [] => .mk i children declaration
  | (key, j) :: rest =>
    match key, j with
    | "c", .arr js => nodeWith i (nodes js) declaration rest
    | "u", .obj fields =>
      let (spelling, behind) := underlying "" none false fields
      nodeWith { i with underlying := some spelling } children behind rest
    | key, j => nodeWith (setField i key j) children declaration rest

/-- The nodes of a list. -/
def nodes : List Json → List Node
  | [] => []
  | j :: rest => node j :: nodes rest

/-- The type that a typedef names: its spelling, and the declaration behind it, if that can be
found. -/
def underlying (spelling : String) (declaration : Option Node) (lost : Bool) :
    List (String × Json) → String × Option Node
  | [] => (spelling, if lost then none else declaration)
  | (key, j) :: rest =>
    match key, j with
    | "s", j => underlying (text j) declaration lost rest
    | "d", .null => underlying spelling none lost rest
    | "d", j => underlying spelling (some (node j)) lost rest
    | "fail", j => underlying spelling declaration j.truthy rest
    | _, _ => underlying spelling declaration lost rest

end

/-! ## Files -/

/-- Adds a file. -/
def addFile (fs : Files) (j : Json) : Files :=
  let tree := nodes (((j.field? "ast").map items).getD [])
  let content := ((j.field? "text").map text).getD ""
  fs.addFile (((j.field? "path").map text).getD "") { tree, text := content }

/-- The files of a snapshot, seen from a directory: first the folders, then the files. -/
def files (here : String) (j : Json) : Files :=
  let folders := ((j.field? "dirs").map items).getD []
  let fs := folders.foldl (fun fs d => fs.addFolder (text d)) ({ here } : Files)
  (((j.field? "files").map items).getD []).foldl addFile fs

end Footprint.Snapshot
