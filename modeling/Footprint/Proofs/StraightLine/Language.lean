import Footprint.Analysis.Run

/-!
# Straight-line bodies

A small language of bodies without branches, loops and calls.  It has
assignments to variables and through pointers, assignments of pointers, and
declarations.  A body *accesses* scalars, and which ones it accesses through a
pointer depends on where the pointer points at that moment.

The accesses of a body are listed in the order in which they happen.  The values
on the right of an assignment are read before the left side is written.  What a
pointer that points nowhere would access is left out.

A variable is called by its full name, which for parameters and locals starts
with the function.  A pointer parameter points at the start to a scalar of its
own, which has the name of the parameter with an ending.
-/

namespace Footprint

/-- What a variable is to a straight-line body. -/
inductive Form where
  | scalar
  | pointer
  | other
deriving Repr, DecidableEq, Inhabited

/-- What a variable is to a straight-line body. -/
def Variable.form (v : Variable) : Form :=
  if v.isPointer then .pointer else if v.kind = .builtin then .scalar else .other

/-- What a variable of the type is to a straight-line body. -/
def NodeType.form (t : NodeType) : Form :=
  match t.canonical with
  | .pointer => .pointer
  | .other => .scalar
  | _ => .other

namespace StraightLine

/-! ## Syntax -/

/-- A variable in a body. -/
inductive Var where
  | global (name : String)
  | own (name : String)
deriving Repr, DecidableEq, Inhabited

/-- How the variable is written. -/
def Var.name : Var → String
  | .global x => x
  | .own x => x

/-- The full name of the variable in a function. -/
def Var.full (f : String) : Var → String
  | .global x => x
  | .own x => ownedName f x

/-- What can be used and assigned to. -/
inductive Place where
  | var (x : Var)
  | deref (p : Var)
deriving Repr, DecidableEq, Inhabited

/-- An expression. -/
inductive Expr where
  | use (l : Place)
  | literal (text : String)
  | paren (e : Expr)
  | binary (op : String) (l r : Expr)
deriving Repr, DecidableEq, Inhabited

/-- A declaration of a parameter or a local. -/
structure Decl where
  name : String
  form : Form
  /-- The type spelling. -/
  type : String
deriving Repr, DecidableEq, Inhabited

/-- A statement. -/
inductive Stmt where
  | assign (l : Place) (e : Expr)
  /-- An assignment by an operator that also reads the left side. -/
  | update (l : Place) (op : String) (e : Expr)
  /-- An increment or a decrement. -/
  | bump (x : Var) (op : String)
  /-- A pointer is given the address of a scalar. -/
  | point (p x : Var)
  /-- A pointer is given the value of another one. -/
  | copy (p q : Var)
  | declare (d : Decl)
deriving Repr, DecidableEq, Inhabited

/-- The declarations among statements. -/
def locals : List Stmt → List Decl
  | [] => []
  | .declare d :: rest => d :: locals rest
  | _ :: rest => locals rest

theorem locals_append {sts rest : List Stmt} :
    locals (sts ++ rest) = locals sts ++ locals rest := by
  induction sts with
  | nil => rfl
  | cons st sts ih =>
    cases st with
    | assign | update | bump | point | copy => exact ih
    | declare d => exact congrArg (d :: ·) ih

/-- The tokens of a place. -/
def Place.tokens : Place → List String
  | .var x => [x.name]
  | .deref p => ["*", p.name]

/-- The tokens of an expression. -/
def Expr.tokens : Expr → List String
  | .use l => l.tokens
  | .literal t => [t]
  | .paren e => "(" :: (e.tokens ++ [")"])
  | .binary op l r => l.tokens ++ op :: r.tokens

/-! ## Accesses -/

/-- A scalar: a variable, or what a pointer parameter is given to point to at the start. -/
inductive Scalar where
  | var (x : Var)
  | given (p : String)
deriving Repr, DecidableEq, Inhabited

/-- A read or a write of a scalar. -/
inductive Access (α : Type) where
  | read (a : α)
  | write (a : α)
deriving Repr, DecidableEq

section Accesses

variable {α : Type}

/-- A scalar is read before it is written, if it is written at all. -/
def ReadFirst (a : α) : List (Access α) → Prop
  | [] => False
  | .read b :: es => b = a ∨ ReadFirst a es
  | .write b :: es => b ≠ a ∧ ReadFirst a es

instance decideReadFirst [DecidableEq α] (a : α) : ∀ es, Decidable (ReadFirst a es)
  | [] => isFalse id
  | .read b :: es => @instDecidableOr (b = a) _ _ (decideReadFirst a es)
  | .write b :: es => @instDecidableAnd (b ≠ a) _ _ (decideReadFirst a es)

/-- The scalar that each pointer points to. -/
abbrev Targets (α : Type) := Var → Option α

/-- The targets with one pointer changed. -/
def Targets.set (τ : Targets α) (p : Var) (t : Option α) : Targets α :=
  fun q => if q = p then t else τ q

variable (name : Var → α) (τ : Targets α)

/-- The scalar that a place is. -/
def Place.scalar : Place → Option α
  | .var x => some (name x)
  | .deref p => τ p

/-- The scalars that an expression reads, in order. -/
def Expr.reads : Expr → List α
  | .use l => (l.scalar name τ).toList
  | .literal _ => []
  | .paren e => e.reads
  | .binary _ l r => l.reads ++ r.reads

/-- What an assignment to a place accesses after its right side. -/
def Place.written (l : Place) : List (Access α) := (l.scalar name τ).toList.map .write

/-- What an update of a place accesses after its right side. -/
def Place.updated (l : Place) : List (Access α) :=
  (l.scalar name τ).toList.flatMap fun a => [.read a, .write a]

/-- What a statement accesses, in order. -/
def Stmt.accesses : Stmt → List (Access α)
  | .assign l e => (e.reads name τ).map .read ++ l.written name τ
  | .update l _ e => (e.reads name τ).map .read ++ l.updated name τ
  | .bump x _ => (Place.var x).updated name τ
  | .point _ _ | .copy _ _ | .declare _ => []

/-- Where pointers point after a statement. -/
def Stmt.targets : Stmt → Targets α
  | .point p x => τ.set p (some (name x))
  | .copy p q => τ.set p (τ q)
  | .declare d => τ.set (.own d.name) none
  | _ => τ

end Accesses

/-- What statements access, in order, from given targets on. -/
def accessesFrom {α : Type} (name : Var → α) : Targets α → List Stmt → List (Access α)
  | _, [] => []
  | τ, st :: rest =>
    st.accesses name τ ++ accessesFrom name (st.targets name τ) rest

/-- Where pointers point when a parameter has been added. -/
def Targets.enter {α : Type} (given : String → α) (τ : Targets α) (d : Decl) : Targets α :=
  τ.set (.own d.name) (if d.form = .pointer then some (given d.name) else none)

/-- Where pointers point when a function with the given parameters starts. -/
def startTargets {α : Type} (given : String → α) (params : List Decl) : Targets α :=
  params.foldl (Targets.enter given) fun _ => none

/-- What a body accesses, in order. -/
def accesses (params : List Decl) (sts : List Stmt) : List (Access Scalar) :=
  accessesFrom Scalar.var (startTargets Scalar.given params) sts

/-! ## Names -/

/-- The name of the block that a pointer parameter points to at the start. -/
def pointee (p : String) : String := p ++ Memory.pointeeEnding

/-- The full name of a scalar in a function. -/
def Scalar.full (f : String) : Scalar → String
  | .var x => x.full f
  | .given p => ownedName f (pointee p)

/-- The name of what a parameter points to at the start, if it is a pointer. -/
def Decl.pointee? (d : Decl) : Option String :=
  if d.form = .pointer then some (pointee d.name) else none

/-- The names of what parameters point to at the start. -/
def pointees (params : List Decl) : List String := params.filterMap Decl.pointee?

/-! ## Scoping -/

/-- The variables that are declared. -/
abbrev Decls := Var → Option Form

/-- The declared variables with one more parameter or local. -/
def Decls.declare (Γ : Decls) (d : Decl) : Decls :=
  fun x => if x = .own d.name then some d.form else Γ x

/-- The characters that stand in no name. -/
def marks : List Char := ['.', '[', '<', '>', '=', '+', '-', '*', '/', '%', '&', '|', '^']

/-- The text can be a name. -/
def IsName (s : String) : Prop := s ≠ "" ∧ ∀ c ∈ s.toList, c ∉ marks

instance (s : String) : Decidable (IsName s) :=
  -- the characters of the text are looked at, not all that there are
  have := List.decidableBAll (· ∉ marks) s.toList
  inferInstanceAs (Decidable (s ≠ "" ∧ ∀ c ∈ s.toList, c ∉ marks))

/-- The operators of expressions.  None of them assigns. -/
def binaryOperators : List String :=
  ["*", "/", "%", "+", "-", "<<", ">>", "<", ">", "<=", ">=", "==", "!=", "&", "^", "|", "&&",
   "||", ","]

section Scoping

variable (Γ : Decls)

/-- The variable is declared in the form. -/
def Var.Is (r : Form) (x : Var) : Prop := IsName x.name ∧ Γ x = some r

instance (r : Form) (x : Var) : Decidable (x.Is Γ r) := inferInstanceAs (Decidable (_ ∧ _))

/-- The place is a scalar, or what a pointer points to. -/
def Place.Scoped : Place → Prop
  | .var x => x.Is Γ .scalar
  | .deref p => p.Is Γ .pointer

instance : ∀ l : Place, Decidable (l.Scoped Γ)
  | .var x => inferInstanceAs (Decidable (x.Is Γ .scalar))
  | .deref p => inferInstanceAs (Decidable (p.Is Γ .pointer))

/-- The expression is built from declared variables. -/
def Expr.Scoped : Expr → Prop
  | .use l => l.Scoped Γ
  | .literal t => t ∉ Node.operators
  | .paren e => e.Scoped
  | .binary op l r => op ∈ binaryOperators ∧ l.Scoped ∧ r.Scoped

instance decideExprScoped : ∀ e : Expr, Decidable (e.Scoped Γ)
  | .use l => inferInstanceAs (Decidable (l.Scoped Γ))
  | .literal t => inferInstanceAs (Decidable (t ∉ Node.operators))
  | .paren e => decideExprScoped e
  | .binary op l r =>
    have := decideExprScoped l
    have := decideExprScoped r
    inferInstanceAs (Decidable (op ∈ binaryOperators ∧ l.Scoped Γ ∧ r.Scoped Γ))

/-- The name is not taken by another declaration. -/
def Decl.Fresh (d : Decl) : Prop :=
  IsName d.name ∧ Γ (.own d.name) = none ∧ Γ (.global d.name) = none

instance (d : Decl) : Decidable (d.Fresh Γ) := inferInstanceAs (Decidable (_ ∧ _ ∧ _))

/-- The statement is built from declared variables, each used in its form.  A test for equality
does not stand on the right of a plain assignment. -/
def Stmt.Scoped : Stmt → Prop
  | .assign l e => l.Scoped Γ ∧ e.Scoped Γ ∧ "==" ∉ e.tokens
  | .update l op e => l.Scoped Γ ∧ op ∈ Node.compoundOperators ∧ e.Scoped Γ
  | .bump x op => x.Is Γ .scalar ∧ op ∈ ["++", "--"]
  | .point p x => p.Is Γ .pointer ∧ x.Is Γ .scalar
  | .copy p q => p.Is Γ .pointer ∧ q.Is Γ .pointer
  | .declare d => d.Fresh Γ

instance : ∀ st : Stmt, Decidable (st.Scoped Γ)
  | .assign _ _ => inferInstanceAs (Decidable (_ ∧ _ ∧ _))
  | .update _ _ _ => inferInstanceAs (Decidable (_ ∧ _ ∧ _))
  | .bump _ _ => inferInstanceAs (Decidable (_ ∧ _))
  | .point _ _ => inferInstanceAs (Decidable (_ ∧ _))
  | .copy _ _ => inferInstanceAs (Decidable (_ ∧ _))
  | .declare d => inferInstanceAs (Decidable (d.Fresh Γ))

/-- The declared variables after a statement. -/
def Stmt.decls : Stmt → Decls
  | .declare d => Γ.declare d
  | _ => Γ

end Scoping

/-- The statements are built from variables declared before them. -/
def Scoped : Decls → List Stmt → Prop
  | _, [] => True
  | Γ, st :: rest => st.Scoped Γ ∧ Scoped (st.decls Γ) rest

instance decideScoped : ∀ (Γ : Decls) (sts : List Stmt), Decidable (Scoped Γ sts)
  | _, [] => isTrue trivial
  | Γ, st :: rest =>
    have := decideScoped (st.decls Γ) rest
    inferInstanceAs (Decidable (st.Scoped Γ ∧ Scoped (st.decls Γ) rest))

/-- The declarations take names that are not taken. -/
def FreshEach : Decls → List Decl → Prop
  | _, [] => True
  | Γ, d :: rest => d.Fresh Γ ∧ FreshEach (Γ.declare d) rest

instance decideFreshEach : ∀ (Γ : Decls) (ds : List Decl), Decidable (FreshEach Γ ds)
  | _, [] => isTrue trivial
  | Γ, d :: rest =>
    have := decideFreshEach (Γ.declare d) rest
    inferInstanceAs (Decidable (d.Fresh Γ ∧ FreshEach (Γ.declare d) rest))

end StraightLine

/-- The variable of a name. -/
def Memory.named? (m : Memory) (name : String) : Option Variable :=
  ((m.names.get? name).bind m.block?).map fun b => m.varOf b.var

namespace StraightLine

/-- The global variables of a memory. -/
def globals (m : Memory) : Decls
  | .global x => (m.named? x).map Variable.form
  | .own _ => none

/-- The declared variables when a function with the given parameters starts. -/
def startDecls (m : Memory) (params : List Decl) : Decls := params.foldl Decls.declare (globals m)

/-! ## Syntax trees -/

/-- A node of the kind has no meaning but that of its children. -/
def groups : NodeKind → Bool
  | .varDecl | .declRef | .memberRef | .subscript | .call | .unary | .binary
  | .compoundAssign => false
  | _ => true

/-- The nodes in the order in which they are walked. -/
def ordered (cs : List Node) : List Node := Node.inOrder (cs.map fun c => (Node.place c.info, c))

/-- Nothing in the tree has a meaning: types, attributes and the like. -/
inductive Inert : Node → Prop where
  | mk {i : NodeInfo} {cs : List Node} {d : Option Node} : groups i.kind = true →
      (∀ c ∈ cs, Inert c) → Inert (.mk i cs d)

/-- The syntax tree of an expression.  Conversions may stand around any part of it. -/
inductive Expr.Parsed : Expr → Node → Prop where
  | var {x : Var} {i : NodeInfo} {d : Option Node} : i.kind = .declRef → i.spelling = x.name →
      Parsed (.use (.var x)) (.mk i [] d)
  | deref {p : Var} {i : NodeInfo} {c : Node} {d : Option Node} : i.kind = .unary →
      i.tokens = ["*", p.name] → Parsed (.use (.var p)) c → Parsed (.use (.deref p)) (.mk i [c] d)
  | literal {t : String} {i : NodeInfo} {d : Option Node} : groups i.kind = true →
      Parsed (.literal t) (.mk i [] d)
  | implicit {e : Expr} {i : NodeInfo} {c : Node} {d : Option Node} : i.kind = .implicit →
      Parsed e c → Parsed e (.mk i [c] d)
  | paren {e : Expr} {i : NodeInfo} {c : Node} {d : Option Node} : i.kind = .paren →
      Parsed e c → Parsed (.paren e) (.mk i [c] d)
  | binary {op : String} {l r : Expr} {i : NodeInfo} {a b : Node} {d : Option Node} :
      i.kind = .binary → i.tokens = (Expr.binary op l r).tokens → Parsed l a → Parsed r b →
      Parsed (.binary op l r) (.mk i [a, b] d)

/-- The syntax tree of the address of a variable. -/
inductive AddressParsed (x : Var) : Node → Prop where
  | address {i : NodeInfo} {c : Node} {d : Option Node} : i.kind = .unary →
      i.tokens = ["&", x.name] → (Expr.use (.var x)).Parsed c → AddressParsed x (.mk i [c] d)
  | implicit {i : NodeInfo} {c : Node} {d : Option Node} : i.kind = .implicit →
      AddressParsed x c → AddressParsed x (.mk i [c] d)

/-- The syntax tree of a statement. -/
inductive Stmt.Parsed : Stmt → Node → Prop where
  | assign {l : Place} {e : Expr} {i : NodeInfo} {a b : Node} {d : Option Node} :
      i.kind = .binary → i.tokens = l.tokens ++ "=" :: e.tokens → (Expr.use l).Parsed a →
      e.Parsed b → Parsed (.assign l e) (.mk i [a, b] d)
  | update {l : Place} {op : String} {e : Expr} {i : NodeInfo} {a b : Node} {d : Option Node} :
      i.kind = .compoundAssign → i.tokens = l.tokens ++ op :: e.tokens → (Expr.use l).Parsed a →
      e.Parsed b → Parsed (.update l op e) (.mk i [a, b] d)
  | bump {x : Var} {op : String} {i : NodeInfo} {c : Node} {d : Option Node} :
      i.kind = .unary → i.tokens = [x.name, op] ∨ i.tokens = [op, x.name] →
      (Expr.use (.var x)).Parsed c → Parsed (.bump x op) (.mk i [c] d)
  | point {p x : Var} {i : NodeInfo} {a b : Node} {d : Option Node} :
      i.kind = .binary → i.tokens = [p.name, "=", "&", x.name] → (Expr.use (.var p)).Parsed a →
      AddressParsed x b → Parsed (.point p x) (.mk i [a, b] d)
  | copy {p q : Var} {i : NodeInfo} {a b : Node} {d : Option Node} :
      i.kind = .binary → i.tokens = [p.name, "=", q.name] → (Expr.use (.var p)).Parsed a →
      (Expr.use (.var q)).Parsed b → Parsed (.copy p q) (.mk i [a, b] d)
  | declare {x : Decl} {i : NodeInfo} {t : NodeType} {cs : List Node} {d : Option Node} :
      i.kind = .varDecl → i.spelling = x.name → i.type = some t → t.spelling = x.type →
      t.form = x.form → (t.shape = .pointer → t.canonical = .pointer) → (∀ c ∈ cs, Inert c) →
      Parsed (.declare x) (.mk i cs d)

mutual

/-- The syntax tree of some statements: of one, or a node that only groups its children. -/
inductive Parsed : List Stmt → Node → Prop where
  | stmt {st : Stmt} {n : Node} : st.Parsed n → Parsed [st] n
  | group {sts : List Stmt} {i : NodeInfo} {cs : List Node} {d : Option Node} :
      groups i.kind = true → ParsedEach sts (ordered cs) → Parsed sts (.mk i cs d)

/-- The syntax trees of some statements, one after the other. -/
inductive ParsedEach : List Stmt → List Node → Prop where
  | nil : ParsedEach [] []
  | cons {sts rest : List Stmt} {c : Node} {cs : List Node} : Parsed sts c →
      ParsedEach rest cs → ParsedEach (sts ++ rest) (c :: cs)

end

/-- The definition of a function whose body is the statements. -/
structure Defines (sts : List Stmt) (n : Node) : Prop where
  kind : n.kind = .functionDecl
  body : ParsedEach sts (ordered n.children)

/-! ## Every body has a syntax tree -/

/-- The tree of a variable. -/
def Var.tree (x : Var) : Node :=
  .mk { kind := .declRef, spelling := x.name, tokens := [x.name] } [] none

/-- The tree of a conversion. -/
def converted (n : Node) : Node := .mk { kind := .implicit, tokens := n.tokens } [n] none

/-- The tree of a place. -/
def Place.tree : Place → Node
  | .var x => x.tree
  | .deref p => .mk { kind := .unary, tokens := ["*", p.name] } [converted p.tree] none

/-- The tree of an expression. -/
def Expr.tree : Expr → Node
  | .use l => converted l.tree
  | .literal t => .mk { kind := .integer, tokens := [t] } [] none
  | .paren e => .mk { kind := .paren, tokens := (Expr.paren e).tokens } [e.tree] none
  | .binary op l r =>
    .mk { kind := .binary, tokens := (Expr.binary op l r).tokens } [l.tree, r.tree] none

/-- A type of the form. -/
def Decl.nodeType (d : Decl) : NodeType :=
  let shape := match d.form with
    | .scalar => .other
    | .pointer => .pointer
    | .other => .record
  { spelling := d.type, shape, canonical := shape }

/-- The tree of a statement. -/
def Stmt.tree : Stmt → Node
  | .assign l e =>
    .mk { kind := .binary, tokens := l.tokens ++ "=" :: e.tokens } [l.tree, e.tree] none
  | .update l op e =>
    .mk { kind := .compoundAssign, tokens := l.tokens ++ op :: e.tokens } [l.tree, e.tree] none
  | .bump x op => .mk { kind := .unary, tokens := [x.name, op] } [x.tree] none
  | .point p x =>
    .mk { kind := .binary, tokens := [p.name, "=", "&", x.name] }
      [p.tree, .mk { kind := .unary, tokens := ["&", x.name] } [x.tree] none] none
  | .copy p q =>
    .mk { kind := .binary, tokens := [p.name, "=", q.name] } [p.tree, converted q.tree] none
  | .declare d => .mk { kind := .varDecl, spelling := d.name, type := some d.nodeType } [] none

/-- The tree of a function whose body is the statements. -/
def definition (sts : List Stmt) : Node :=
  .mk { kind := .functionDecl } [.mk { kind := .other } (sts.map Stmt.tree) none] none

theorem Var.parsed_tree (x : Var) : (Expr.use (.var x)).Parsed x.tree := .var rfl rfl

theorem Place.parsed_tree (l : Place) : (Expr.use l).Parsed l.tree := by
  cases l with
  | var x => exact x.parsed_tree
  | deref p => exact .deref rfl rfl (.implicit rfl p.parsed_tree)

theorem Expr.parsed_tree (e : Expr) : e.Parsed e.tree := by
  induction e with
  | use l => exact .implicit rfl l.parsed_tree
  | literal t => exact .literal rfl
  | paren e ih => exact .paren rfl ih
  | binary op l r ihl ihr => exact .binary rfl rfl ihl ihr

theorem Decl.form_nodeType (d : Decl) : d.nodeType.form = d.form := by
  unfold Decl.nodeType NodeType.form
  cases d.form with
  | scalar => rfl
  | pointer => rfl
  | other => rfl

theorem Stmt.parsed_tree (st : Stmt) : st.Parsed st.tree := by
  cases st with
  | assign l e => exact .assign rfl rfl l.parsed_tree e.parsed_tree
  | update l op e => exact .update rfl rfl l.parsed_tree e.parsed_tree
  | bump x op => exact .bump rfl (.inl rfl) x.parsed_tree
  | point p x => exact .point rfl rfl p.parsed_tree (.address rfl rfl x.parsed_tree)
  | copy p q => exact .copy rfl rfl p.parsed_tree (.implicit rfl q.parsed_tree)
  | declare d => exact .declare rfl rfl rfl rfl d.form_nodeType id (by simp)

theorem place_tree (st : Stmt) : Node.place st.tree.info = (0, 0) := by
  cases st with
  | assign | update | bump | point | copy | declare => rfl

/-- Trees at one place are walked as they come. -/
theorem ordered_of_place {cs : List Node} (h : ∀ c ∈ cs, Node.place c.info = (0, 0)) :
    ordered cs = cs := by
  have hsorted : Node.sortByPlace (cs.map fun c => (Node.place c.info, c)) =
      cs.map fun c => (Node.place c.info, c) := by
    induction cs with
    | nil => rfl
    | cons c cs ih =>
      rw [List.map_cons, Node.sortByPlace, ih fun c' hc' => h c' (List.mem_cons_of_mem c hc')]
      cases cs with
      | nil => rfl
      | cons c' cs =>
        rw [List.map_cons, Node.insertAt, h c (List.mem_cons_self ..),
          h c' (List.mem_cons_of_mem c (List.mem_cons_self ..))]
        rfl
  rw [ordered, Node.inOrder, hsorted, List.map_map]
  exact List.map_id cs

theorem parsedEach_trees (sts : List Stmt) : ParsedEach sts (sts.map Stmt.tree) := by
  induction sts with
  | nil => exact .nil
  | cons st sts ih => exact .cons (.stmt st.parsed_tree) ih

/-- All statements are the body of a function. -/
theorem defines_definition (sts : List Stmt) : Defines sts (definition sts) := by
  have hplace : ∀ c ∈ sts.map Stmt.tree, Node.place c.info = (0, 0) := by
    intro c hc
    obtain ⟨st, _, rfl⟩ := List.mem_map.mp hc
    exact place_tree st
  have hbody : ParsedEach sts (ordered (sts.map Stmt.tree)) := by
    rw [ordered_of_place hplace]
    exact parsedEach_trees sts
  refine ⟨rfl, ?_⟩
  have hgroup := ParsedEach.cons (.group (i := { kind := .other }) (d := none) rfl hbody) .nil
  rw [List.append_nil] at hgroup
  exact hgroup

end StraightLine

end Footprint
