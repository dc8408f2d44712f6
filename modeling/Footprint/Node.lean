/-!
# Syntax trees

The syntax tree of a C file, as far as the analysis looks at it.  A node has a
kind, a spelling, a place, a type, its tokens and its children.  A typedef also
has the spelling of the type it names and the declaration behind that type.

`inOrder` is the order in which a body is walked: by place, and children at one
place as they come.
-/

namespace Footprint

/-- The kinds of nodes that the analysis tells apart. -/
inductive NodeKind where
  | varDecl
  | functionDecl
  | structDecl
  | unionDecl
  | typedefDecl
  | enumDecl
  | fieldDecl
  | paramDecl
  | typeRef
  | declRef
  | memberRef
  | subscript
  | call
  | unary
  | binary
  | compoundAssign
  | conditional
  | paren
  | cast
  | implicit
  | integer
  | other
deriving Repr, DecidableEq, Inhabited

/-- The shapes of C types that the analysis tells apart. -/
inductive TypeShape where
  | pointer
  | record
  | array
  | other
deriving Repr, DecidableEq, Inhabited

/-- The type of a node. -/
structure NodeType where
  /-- As it is written. -/
  spelling : String
  /-- The shape as it is written. -/
  shape : TypeShape
  /-- The shape after all typedefs. -/
  canonical : TypeShape
deriving Repr, DecidableEq, Inhabited

/-- What a node says about itself. -/
structure NodeInfo where
  kind : NodeKind
  spelling : String := ""
  /-- The file it stands in, if any. -/
  file : Option String := none
  line : Option Int := some 0
  column : Option Int := some 0
  type : Option NodeType := none
  tokens : List String := []
  /-- Which children are the arguments of a call, if not all but the first. -/
  arguments : Option (List Nat) := none
  isDefinition : Bool := false
  /-- The spelling of what it refers to. -/
  referenced : Option String := none
  /-- For a typedef, the spelling of the type it names. -/
  underlying : Option String := none
  /-- A number that tells declarations without a name apart. -/
  hash : Option Int := none
deriving Repr, DecidableEq, Inhabited

/-- A syntax tree.  The last part is the declaration behind the type of a typedef. -/
inductive Node where
  | mk (info : NodeInfo) (children : List Node) (declaration : Option Node)
deriving Repr, Inhabited

namespace Node

/-- What the node says about itself. -/
def info : Node → NodeInfo
  | .mk i _ _ => i

/-- The children, as they come. -/
def children : Node → List Node
  | .mk _ cs _ => cs

/-- The declaration behind the type of a typedef. -/
def declaration : Node → Option Node
  | .mk _ _ d => d

/-- The kind of the node. -/
def kind (n : Node) : NodeKind := n.info.kind

/-- The spelling of the node. -/
def spelling (n : Node) : String := n.info.spelling

/-- The tokens of the node. -/
def tokens (n : Node) : List String := n.info.tokens

/-- The places of the arguments among `count` children. -/
def argumentPlaces (i : NodeInfo) (count : Nat) : List Nat :=
  match i.arguments with
  | some places => places
  | none => (List.range count).drop 1

/-- The arguments of a call. -/
def arguments (n : Node) : List Node :=
  (argumentPlaces n.info n.children.length).filterMap fun i => n.children[i]?

/-- The name of the called function: the spelling, or what is referred to if that is empty. -/
def calleeName (i : NodeInfo) : String :=
  if i.spelling.isEmpty then i.referenced.getD "" else i.spelling

/-! ## Walking order -/

/-- The place a node is walked at.  A node without a full place comes first. -/
def place (i : NodeInfo) : Int × Int :=
  match i.line, i.column with
  | some l, some c => (l, c)
  | _, _ => (0, 0)

/-- The first place is not after the second. -/
def notAfter (p q : Int × Int) : Bool := p.1 < q.1 || (p.1 = q.1 && p.2 ≤ q.2)

/-- Puts an item before the first one that is not before it. -/
def insertAt {α : Type} (p : Int × Int) (a : α) :
    List ((Int × Int) × α) → List ((Int × Int) × α)
  | [] => [(p, a)]
  | (q, b) :: rest => if notAfter p q then (p, a) :: (q, b) :: rest else (q, b) :: insertAt p a rest

/-- Items sorted by place.  Items at one place stay as they come. -/
def sortByPlace {α : Type} : List ((Int × Int) × α) → List ((Int × Int) × α)
  | [] => []
  | (p, a) :: rest => insertAt p a (sortByPlace rest)

/-- The items of a list in walking order. -/
def inOrder {α : Type} (items : List ((Int × Int) × α)) : List α :=
  (sortByPlace items).map Prod.snd

/-! ## Operators -/

/-- The operators that the analysis looks for, in the order in which it looks. -/
def operators : List String :=
  ["+=", "-=", "*=", "/=", "%=", "<<=", ">>=", "&=", "|=", "^=", "==", "=", "++", "--", "*", "&"]

/-- The operators that read their left side and write it. -/
def compoundOperators : List String :=
  ["+=", "-=", "*=", "/=", "%=", "<<=", ">>=", "&=", "|=", "^="]

/-- The first of the operators that is among the tokens, or the empty text. -/
def operatorOf (i : NodeInfo) : String :=
  (operators.find? fun op => i.tokens.contains op).getD ""

end Node

end Footprint
