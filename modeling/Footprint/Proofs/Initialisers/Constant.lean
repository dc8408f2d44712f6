import Footprint.Proofs.Initialisers.Assigned

/-!
# Constant initialisers of pointers

A constant initialiser is the address of a variable, a member or an element, or
the name of an array.  It stands for a path of names and constant indices.  At
the declaration of a global pointer it is read without a body around it, and at
that of a local one as an expression of the body.

Both readings look up the same path, if the initialiser is an address and comes
first in the declaration, and if all of its indices are literals.  The reading for
globals has no case for the name of an array, and it takes the first child of the
declaration, which is a type if the declaration uses the name of one.  Then the
global pointer gets no target, and the local one does.  It also leaves an index
out that is no literal, which stands for all elements in a body.

A cast that names a type ends both readings of an initialiser.  Within a path it
ends that for globals alone.
-/

namespace Footprint

open Memory StraightLine

open StraightLine (IsName Inert ownedName_ne_empty ownedName_plain)

/-! ## Initialisers -/

namespace Node

/-- The kind is that of parentheses, casts and implicit conversions. -/
def Wraps (k : NodeKind) : Prop := k = .implicit ∨ k = .paren ∨ k = .cast

theorem Wraps.groups {k : NodeKind} (h : Wraps k) : groups k = true := by
  rcases h with rfl | rfl | rfl
  all_goals rfl

/-- The expression is built of literals, and of names that stand for no variable. -/
inductive Constant (free : String → Prop) : Node → Prop
  | inert {n : Node} : Inert n → Constant free n
  | name {i : NodeInfo} {cs : List Node} {d : Option Node} : i.kind = .declRef →
      free i.spelling → Constant free (.mk i cs d)
  | wrapped {i : NodeInfo} {c : Node} {d : Option Node} : Wraps i.kind → Constant free c →
      Constant free (.mk i [c] d)
  | binary {i : NodeInfo} {a b : Node} {d : Option Node} : i.kind = .binary →
      Harmless (operatorOf i) → Constant free a → Constant free b → Constant free (.mk i [a, b] d)

/-- The path of an element without a body: an index that is no literal is left out. -/
def elementPath (whole : String) : Option String → String
  | some text => whole ++ "[" ++ text ++ "]"
  | none => whole

/-- The expression denotes a place by a path of names and constant indices.  The wholes on the way
are looked up in a memory, which may lay blocks out.  The second path is that without a body. -/
inductive Denotes (R : String → Memory → Memory → Prop) (free : String → Prop) :
    String → Option String → Node → Memory → Memory → Prop
  | var {i : NodeInfo} {cs : List Node} {d : Option Node} {m : Memory} : i.kind = .declRef →
      i.spelling ≠ "" → Denotes R free i.spelling (some i.spelling) (.mk i cs d) m m
  | member {base : String} {whole : Option String} {i : NodeInfo} {c : Node} {cs : List Node}
      {d : Option Node} {m m₁ m₂ : Memory} : i.kind = .memberRef →
      Denotes R free base whole c m m₁ → R base m₁ m₂ →
      Denotes R free (base ++ "." ++ i.spelling) (whole.map (· ++ "." ++ i.spelling))
        (.mk i (c :: cs) d) m m₂
  | element {base : String} {whole : Option String} {i : NodeInfo} {c index : Node}
      {cs : List Node} {d : Option Node} {m m₁ m₂ : Memory} : i.kind = .subscript →
      Denotes R free base whole c m m₁ → R base m₁ m₂ → Constant free index →
      Denotes R free (base ++ "[" ++ index.integerText?.getD "?" ++ "]")
        (whole.map (elementPath · index.integerText?)) (.mk i (c :: index :: cs) d) m m₂
  | wrapped {path : String} {whole : Option String} {i : NodeInfo} {c : Node} {d : Option Node}
      {m m₁ : Memory} : Wraps i.kind → Denotes R free path whole c m m₁ →
      Denotes R free path whole (.mk i [c] d) m m₁
  | typed {path : String} {whole : Option String} {i : NodeInfo} {r c : Node} {d : Option Node}
      {m m₁ : Memory} : i.kind = .cast → r.NamesType → Denotes R free path whole c m m₁ →
      Denotes R free path none (.mk i [r, c] d) m m₁

/-- How an initialiser gives its place. -/
inductive InitForm where
  | address
  | array
deriving DecidableEq

/-- The expression is a constant initialiser for the place of a path.  It may be in a cast that
names a type. -/
inductive Initialises (R : String → Memory → Memory → Prop) (free : String → Prop)
    (path : String) (whole : Option String) :
    InitForm → Bool → Node → Memory → Memory → Prop
  | address {i : NodeInfo} {c : Node} {d : Option Node} {m m₁ : Memory} : i.kind = .unary →
      operatorOf i = "&" → Denotes R free path whole c m m₁ →
      Initialises R free path whole .address false (.mk i [c] d) m m₁
  | array {i : NodeInfo} {cs : List Node} {d : Option Node} {m : Memory} : i.kind = .declRef →
      i.spelling = path → path ≠ "" → R path m m →
      Initialises R free path whole .array false (.mk i cs d) m m
  | wrapped {form : InitForm} {typed : Bool} {i : NodeInfo} {c : Node} {d : Option Node}
      {m m₁ : Memory} : Wraps i.kind → Initialises R free path whole form typed c m m₁ →
      Initialises R free path whole form typed (.mk i [c] d) m m₁
  | typed {form : InitForm} {typed : Bool} {i : NodeInfo} {r c : Node} {d : Option Node}
      {m m₁ : Memory} : i.kind = .cast → r.NamesType →
      Initialises R free path whole form typed c m m₁ →
      Initialises R free path whole form true (.mk i [r, c] d) m m

variable {R : String → Memory → Memory → Prop} {free : String → Prop} {path : String}
variable {whole : Option String} {form : InitForm} {typed : Bool} {c e r : Node} {m m₁ : Memory}

theorem Denotes.mono {R' : String → Memory → Memory → Prop}
    (hR : ∀ n m m₁, R n m m₁ → R' n m m₁) (h : Denotes R free path whole c m m₁) :
    Denotes R' free path whole c m m₁ := by
  induction h with
  | var hkind hne => exact .var hkind hne
  | member hkind _ hbase ih => exact .member hkind ih (hR _ _ _ hbase)
  | element hkind _ hbase hindex ih => exact .element hkind ih (hR _ _ _ hbase) hindex
  | wrapped hkind _ ih => exact .wrapped hkind ih
  | typed hkind hr _ ih => exact .typed hkind hr ih

theorem Denotes.ne_empty (h : Denotes R free path whole c m m₁) : path ≠ "" ∧ whole ≠ some "" := by
  induction h with
  | var _ hne => exact ⟨hne, fun h => hne (Option.some.inj h)⟩
  | member => simp [String.append_eq_empty_iff]
  | @element _ whole _ _ index _ _ _ _ _ _ _ _ _ ih =>
    refine ⟨by simp [String.append_eq_empty_iff], ?_⟩
    cases index.integerText? with
    | some text => simp [elementPath, String.append_eq_empty_iff]
    | none => simpa [elementPath] using ih.2
  | wrapped _ _ ih => exact ih
  | typed _ _ _ ih => exact ⟨ih.1, by simp⟩

theorem Denotes.filter (h : Denotes R free path whole c m m₁) :
    (some path).filter (!·.isEmpty) = some path := by
  simp [h.ne_empty.1]

theorem Denotes.filter_whole (h : Denotes R free path whole c m m₁) :
    whole.filter (!·.isEmpty) = whole := by
  cases whole with
  | none => rfl
  | some g => simpa using h.ne_empty.2

theorem NamesType.globalAccess? (hr : r.NamesType) : r.globalAccess? = none := by
  obtain ⟨i, cs, d⟩ := r
  have hkind : i.kind = .typeRef := hr.kind
  unfold Node.globalAccess?
  simp only [hkind]

/-- Read without a body, the expression denotes its second path. -/
theorem Denotes.globalAccess? (h : Denotes R free path whole c m m₁) :
    c.globalAccess? = whole := by
  induction h with
  | var hkind =>
    unfold Node.globalAccess?
    simp only [hkind]
  | member hkind hc _ ih => simp only [Node.globalAccess?, hkind, ih, hc.filter_whole]
  | element hkind hc _ _ ih =>
    simp only [Node.globalAccess?, hkind, ih, hc.filter_whole]
    rfl
  | wrapped hkind _ ih =>
    rcases hkind with hkind | hkind | hkind
    all_goals
      simp only [Node.globalAccess?, hkind]
      exact ih
  | typed hkind hr =>
    simp only [Node.globalAccess?, hkind]
    exact hr.globalAccess?

theorem mem_tokens_of_operatorOf {i : NodeInfo} (h : operatorOf i = "&") :
    i.tokens.contains "&" = true := by
  unfold operatorOf at h
  cases hfind : operators.find? fun op => i.tokens.contains op with
  | none =>
    rw [hfind] at h
    exact absurd h (by decide)
  | some op =>
    rw [hfind] at h
    cases h
    exact List.find?_some hfind

/-- What is looked up for a place without a body. -/
def lookup? (T : TypeTable) : Option String → MemM (Option Nat)
  | some path => resolve T path
  | none => return none

/-- What is looked up for a global pointer. -/
def InitForm.lookup (T : TypeTable) (pointers : Table String (Option Int)) (path : String)
    (whole : Option String) : InitForm → MemM (Option Int)
  | .address => do return (← lookup? T whole).map Int.ofNat
  | .array => return (pointers.get? path).join

theorem NamesType.initialTarget (hr : r.NamesType) (T : TypeTable)
    (pointers : Table String (Option Int)) : Memory.initialTarget T pointers r = pure none := by
  obtain ⟨i, cs, d⟩ := r
  have hkind : i.kind = .typeRef := hr.kind
  unfold Memory.initialTarget
  simp only [hkind]

/-- The address that a constant initialiser gives to a global pointer. -/
theorem Initialises.initialTarget (h : Initialises R free path whole form typed e m m₁)
    (T : TypeTable) (pointers : Table String (Option Int)) :
    Memory.initialTarget T pointers e =
      if typed then pure none else form.lookup T pointers path whole := by
  induction h with
  | address hkind hop hc =>
    simp only [Memory.initialTarget, hkind, mem_tokens_of_operatorOf hop, if_true, List.head?_cons,
      Option.bind_some, hc.globalAccess?, hc.filter_whole, InitForm.lookup]
    cases whole with
    | none => rfl
    | some g => rfl
  | array hkind hpath =>
    unfold Memory.initialTarget
    simp only [hkind, hpath]
    rfl
  | wrapped hkind _ ih =>
    rcases hkind with hkind | hkind | hkind
    all_goals
      simp only [Memory.initialTarget, hkind]
      exact ih
  | typed hkind hr =>
    simp only [Memory.initialTarget, hkind]
    exact hr.initialTarget T pointers

theorem Initialises.ne_empty (h : Initialises R free path whole form typed e m m₁) :
    path ≠ "" := by
  induction h with
  | address _ _ hc => exact hc.ne_empty.1
  | array _ _ hne => exact hne
  | wrapped _ _ ih => exact ih
  | typed _ _ _ ih => exact ih

theorem Initialises.kind_ne (h : Initialises R free path whole form typed e m m₁) :
    e.kind ≠ .typeRef := by
  cases h with
  | address hkind => simp [kind, info, hkind]
  | array hkind => simp [kind, info, hkind]
  | wrapped hkind =>
    rcases hkind with hkind | hkind | hkind
    all_goals simp [kind, info, hkind]
  | typed hkind => simp [kind, info, hkind]

/-- The name of an array is not looked up on the way. -/
theorem Initialises.of_array (h : Initialises R free path whole form typed e m m₁)
    (hform : form = .array) : R path m m ∧ m₁ = m := by
  induction h with
  | address => cases hform
  | array _ _ _ hR => exact ⟨hR, rfl⟩
  | wrapped _ _ ih => exact ih hform
  | typed _ _ _ ih => exact ⟨(ih hform).1, rfl⟩

end Node

namespace Walk

open Node (Constant Denotes Initialises InitForm)

variable {calls : CallIndex} {s : Scope} {w : Walk} {n path : String} {whole : Option String}
variable {form : InitForm} {typed : Bool} {m m₁ m₂ : Memory}

/-! ## Names in a body -/

/-- Looked up in a body, the name is that of a global block that is no pointer. -/
structure Global (s : Scope) (pointers : Table String (Option Int)) (n : String) (m m₁ : Memory) :
    Prop where
  own : resolve s.types (ownedName s.name n) m = .ok none m
  found : ∃ a b, resolve s.types n m = .ok (some a) m₁ ∧ m₁.block? a = some b ∧
    (m₁.varOf b.var).isPointer = false
  keys : pointers.contains (ownedName s.name n) = false ∧ pointers.contains n = false

/-- In a body the name stands for nothing. -/
structure Unnamed (s : Scope) (w : Walk) (n : String) : Prop where
  name : IsName n
  global : w.memory.address? n = none
  own : w.memory.address? (ownedName s.name n) = none

variable {T : TypeTable} {a : Nat} {e : Node} {R : String → Memory → Memory → Prop} {x : String}
variable {free : String → Prop} {t : NodeType}

theorem changes_resolve (hl : Linked none m) {found : Option Nat}
    (h : resolve T n m = .ok found m₁) : Changes T (fun _ => True) False m m₁ :=
  ((resolve_completes (admits_all T) n hl).value _ _ h).1.changes

theorem owns_resolve (hl : Linked none m)
    (h : resolve T n m = .ok (some a) m₁) : m₁.Owns a :=
  ((changes_resolve hl h).after hl).linked.owns_named
    (((resolve_completes (admits_all T) n hl).value _ _ h).2 a rfl).1

theorem Global.changes {pointers : Table String (Option Int)} (h : Global s pointers n m m₁)
    (hl : Linked none m) : Changes s.types (fun _ => True) False m m₁ := by
  obtain ⟨a, b, hresolve, _⟩ := h.found
  exact changes_resolve hl hresolve

theorem Global.pointerKey (h : Global s w.pointers n w.memory m₁)
    (hl : Linked none w.memory) (hne : n ≠ "") :
    pointerKey s n w = .ok none { w with memory := m₁ } := by
  have hl₁ := ((h.changes hl).after hl).linked
  obtain ⟨a, b, hresolve, hb, hpointer⟩ := h.found
  have hown : pointerNamed s (ownedName s.name n) w = .ok none w := bind_of_ok (onMemory_ok h.own)
  have hname : pointerNamed s n w = .ok none { w with memory := m₁ } := by
    refine (bind_of_ok (onMemory_ok hresolve)).trans ?_
    refine (bind_of_ok (onMemory_ok (variableAt_ok hl₁ hb))).trans ?_
    simp only [hpointer]
    rfl
  exact pointerKey_none hne hown hname h.keys

theorem Global.pointedName? (h : Global s w.pointers n w.memory m₁)
    (hl : Linked none w.memory) (hne : n ≠ "") :
    pointedName? s n w = .ok none { w with memory := m₁ } := by
  have htarget : targetOfName s (some n) w = .ok none { w with memory := m₁ } :=
    bind_of_ok (h.pointerKey hl hne)
  exact bind_of_ok htarget

theorem accessName_namesType {r : Node} (hr : r.NamesType) : accessName s r = pure none := by
  obtain ⟨i, cs, d⟩ := r
  have hkind : i.kind = .typeRef := hr.kind
  unfold accessName
  simp only [hkind]

/-- Read in a body, the expression denotes its path, if the names on the way are global. -/
theorem accessName_denotes {c : Node} (hl : Linked none m)
    (h : Denotes (Global s w.pointers) free path whole c m m₁) :
    accessName s c { w with memory := m } = .ok (some path) { w with memory := m₁ } ∧
      Changes s.types (fun _ => True) False m m₁ := by
  induction h with
  | var hkind =>
    rw [accessName_declRef hkind]
    exact ⟨rfl, .refl⟩
  | @member base whole i c cs d m m₁ m₂ hkind hc hbase ih =>
    obtain ⟨hrun, hchanges⟩ := ih hl
    have hl₁ := (hchanges.after hl).linked
    refine ⟨?_, hchanges.trans (hbase.changes hl₁)⟩
    unfold accessName
    simp only [hkind]
    refine (bind_of_ok hrun).trans ?_
    rw [hc.filter]
    exact bind_of_ok (Global.pointedName? (w := { w with memory := m₁ }) hbase hl₁ hc.ne_empty.1)
  | @element base whole i c index cs d m m₁ m₂ hkind hc hbase _ ih =>
    obtain ⟨hrun, hchanges⟩ := ih hl
    have hl₁ := (hchanges.after hl).linked
    have helement : elementName s base index { w with memory := m₁ } =
        .ok (base ++ "[" ++ index.integerText?.getD "?" ++ "]") { w with memory := m₂ } :=
      bind_of_ok (Global.pointedName? (w := { w with memory := m₁ }) hbase hl₁ hc.ne_empty.1)
    refine ⟨?_, hchanges.trans (hbase.changes hl₁)⟩
    unfold accessName
    simp only [hkind]
    refine (bind_of_ok hrun).trans ?_
    rw [hc.filter]
    exact bind_of_ok helement
  | wrapped hkind hc ih =>
    obtain ⟨hrun, hchanges⟩ := ih hl
    refine ⟨?_, hchanges⟩
    unfold accessName
    rcases hkind with hkind | hkind | hkind
    · simp only [hkind]
      exact hrun
    · simp only [hkind]
      exact hrun
    · simp only [hkind, firstAccess]
      refine (bind_of_ok hrun).trans ?_
      rw [hc.filter]
      rfl
  | @typed path whole i r c d m m₁ hkind hr hc ih =>
    obtain ⟨hrun, hchanges⟩ := ih hl
    refine ⟨?_, hchanges⟩
    unfold accessName
    simp only [hkind, firstAccess, accessName_namesType hr]
    refine (bind_of_ok rfl).trans ((bind_of_ok hrun).trans ?_)
    rw [hc.filter]
    rfl

theorem addressIn_resolve (hne : n ≠ "")
    (h : resolve s.types n w.memory = .ok (some a) m₁) :
    addressIn? s (some n) w = .ok (some (a : Int)) { w with memory := m₁ } := by
  have hfilter : (some n).filter (!·.isEmpty) = some n := by simp [hne]
  have haddress : addressIn s n w = .ok (some a) { w with memory := m₁ } :=
    bind_of_ok (onMemory_ok h)
  unfold addressIn?
  rw [hfilter]
  exact bind_of_ok haddress

/-- The name of a global block that is no pointer has no target. -/
theorem Global.targetOf (h : Global s w.pointers n w.memory w.memory)
    (hl : Linked none w.memory) (hne : n ≠ "") : targetOf s n w = .ok none w := by
  obtain ⟨a, b, hresolve, hb, hpointer⟩ := h.found
  have hnone : w.pointers.get? n = none := by simpa [Table.contains] using h.keys.2
  have hvar : variableOf s n w = .ok (some (b.var, w.memory.varOf b.var)) w :=
    (bind_of_ok (onMemory_ok hresolve)).trans (onMemory_ok (variableAt_ok hl hb))
  rw [targetOf_eq hne, hnone]
  refine (bind_of_ok hvar).trans ?_
  simp only [remembered, hpointer]
  rfl

/-- A constant initialiser has the address of its place, as the value of a pointer.  In a cast that
names a type it has none. -/
theorem pointerTarget_initialises
    (h : Initialises (Global s w.pointers) free path whole form typed e w.memory m)
    (hl : Linked none w.memory) (hplace : resolve s.types path m = .ok (some a) m₁) :
    ∃ m₂, pointerTarget s e w =
        .ok (if typed then none else some (a : Int)) { w with memory := m₂ } ∧
      Changes s.types (fun _ => True) False w.memory m₂ ∧
      m₂.OwnsTarget (if typed then none else some (a : Int)) ∧ (form = .array → m₂ = m₁) := by
  have hne := h.ne_empty
  generalize hm : w.memory = m₀ at h
  induction h with
  | @address i c d m m₁' hkind hop hc =>
    subst hm
    obtain ⟨hrun, hchanges⟩ := accessName_denotes hl hc
    have hl₁ := (hchanges.after hl).linked
    have hunary : ((Node.mk i [c] d).kind = .unary &&
        Node.operatorOf (Node.mk i [c] d).info = "&") = true := by
      simp [Node.kind, Node.info, hkind, hop]
    refine ⟨m₁, ?_, hchanges.trans (changes_resolve hl₁ hplace), (owns_resolve hl₁ hplace).target,
      fun _ => rfl⟩
    unfold pointerTarget
    simp only [hkind]
    rw [bareTarget, if_pos hunary]
    exact (bind_of_ok hrun).trans (addressIn_resolve (w := { w with memory := m₁' }) hne hplace)
  | @array i cs d m hkind hpath _ hglobal =>
    subst hm
    subst hpath
    have hunary : ¬ ((Node.mk i cs d).kind = .unary &&
        Node.operatorOf (Node.mk i cs d).info = "&") = true := by
      simp [Node.kind, Node.info, hkind]
    have hname : pointerName s (.mk i cs d) = pure (some i.spelling) := by
      unfold pointerName
      simp only [hkind]
    refine ⟨m₁, ?_, changes_resolve hl hplace, (owns_resolve hl hplace).target, fun _ => rfl⟩
    unfold pointerTarget
    simp only [hkind]
    rw [bareTarget, if_neg hunary, hname]
    refine (bind_of_ok rfl).trans ((bind_of_ok (hglobal.pointerKey hl hne)).trans ?_)
    simp only [Node.kind, Node.info, hkind, if_true]
    exact (bind_of_ok (hglobal.targetOf hl hne)).trans (addressIn_resolve hne hplace)
  | wrapped hkind _ ih =>
    unfold pointerTarget
    rcases hkind with hkind | hkind | hkind
    all_goals
      simp only [hkind]
      exact ih hplace hm
  | @typed form typed i r c d m m₁' hkind hr hc =>
    subst hm
    refine ⟨w.memory, ?_, .refl, ownsTarget_none, fun hform => ?_⟩
    · unfold pointerTarget
      simp only [hkind, pointerTarget_inert hr.inert]
      rfl
    · obtain ⟨_, _, hresolve, _⟩ := (hc.of_array hform).1.found
      cases hresolve.symm.trans hplace
      rfl

/-- Evaluating a constant expression changes nothing. -/
theorem walk_constant (h : Constant free e) (hfree : ∀ n, free n → addressIn s n w = .ok none w) :
    Runs (walk calls s e) w fun _ w' => w' = w := by
  induction h with
  | inert h => exact walk_inert h w
  | name hkind hn =>
    rw [walk_declRef hkind, readAccess, accessName_declRef hkind]
    exact .bind_ok rfl (.bind_ok (hfree _ hn) (.pure rfl))
  | wrapped hkind _ ih =>
    refine walk_group_same hkind.groups fun c hc => ?_
    rw [List.mem_singleton.mp hc]
    exact ih
  | binary hkind hop _ _ iha ihb =>
    rw [walk_value hkind hop]
    refine Runs.bind iha ?_
    rintro _ _ rfl
    exact ihb

/-- Evaluating a constant initialiser changes nothing. -/
theorem walk_initialises (h : Initialises R free path whole form typed e m m₁)
    (hl : Linked none w.memory) (hfree : ∀ n, free n → addressIn s n w = .ok none w)
    (harray : form = .array → ∃ a id, w.memory.At path a id ∧ (w.memory.varOf id).kind = .array) :
    Runs (walk calls s e) w fun _ w' => w' = w := by
  have hne := h.ne_empty
  induction h with
  | @address i c d _ _ hkind hop hc =>
    by_cases hsub : c.kind = .subscript
    · cases hc with
      | element hsubscript _ _ hindex =>
        unfold walk
        simp only [hkind, hop, hsubscript]
        exact walk_constant hindex hfree
      | var hk => simp [Node.kind, Node.info, hk] at hsub
      | member hk => simp [Node.kind, Node.info, hk] at hsub
      | wrapped hk =>
        rcases hk with hk | hk | hk
        all_goals simp [Node.kind, Node.info, hk] at hsub
      | typed hk => simp [Node.kind, Node.info, hk] at hsub
    · rw [walk_address hkind hop hsub]
      exact .pure rfl
  | @array i cs d _ hkind hpath =>
    subst hpath
    obtain ⟨a, id, hat, hisArray⟩ := harray rfl
    have haddress : addressIn s i.spelling w = .ok (some a) w :=
      bind_of_ok (addressOf_at hne hat)
    rw [walk_declRef hkind, readAccess, accessName_declRef hkind]
    refine .bind_ok rfl (.bind_ok haddress (.bind_ok (variableAt_at hl hat) ?_))
    simp only [Node.kind, Node.info, hkind, hisArray]
    exact Ends.pure rfl
  | wrapped hkind _ ih =>
    refine walk_group_same hkind.groups fun c hc => ?_
    rw [List.mem_singleton.mp hc]
    exact ih harray
  | @typed _ _ i r c _ _ _ hkind hr _ ih =>
    refine walk_group_same (by rw [hkind]; rfl) fun c' hc' => ?_
    rcases List.mem_pair.mp hc' with rfl | rfl
    · exact walk_inert hr.inert w
    · exact ih harray

/-! ## Local and global pointers -/

/-- Lookups leave a declared pointer. -/
theorem Declared.changes (h : w.Declared s x) (hs : IsName s.name) (hx : IsName x)
    (hc : Changes T (fun _ => True) False w.memory m) :
    Declared s x { w with memory := m } := by
  obtain ⟨a, id, hat, hpointer, htarget⟩ := h.found
  obtain ⟨b, hb, rfl⟩ := hat.exists_block
  refine ⟨(hc.after h.linked).linked, a, b.var, ⟨?_, ?_⟩, ?_, ?_⟩
  · exact (hc.address_whole (not_hasSteps_ownedName hs hx)).trans hat.address
  · rw [hc.block hb]
    rfl
  · rw [(hc.var h.linked (h.linked.var_lt hb)).same]
    exact hpointer
  · exact (hc.target b.var).trans htarget

/-- A name that stands for nothing still does after lookups. -/
theorem Unnamed.addressIn (h : w.Unnamed s n) (hs : IsName s.name) {w' : Walk}
    (hnames : ∀ k, ¬ HasSteps k → w'.memory.names.get? k = w.memory.names.get? k) :
    addressIn s n w' = .ok none w' := by
  have hplain : ¬ HasSteps n := by
    rintro (hc | hc)
    · exact (h.name.plain _ hc).1 rfl
    · exact (h.name.plain _ hc).2.1 rfl
  have hglobal := addressOf_none (s := s) h.name.1 h.name.plain ((hnames n hplain).trans h.global)
  exact (bind_of_ok hglobal).trans (addressOf_none (ownedName_ne_empty s.name n)
    (ownedName_plain hs h.name) ((hnames _ (not_hasSteps_ownedName hs h.name)).trans h.own))

/-- A local pointer is given the address of a constant initialiser. -/
theorem walk_initialised_constant {refs : List Node} {n bare : Node} {w₁ : Walk} (hw : w.Free s x)
    (hpointer : t.canonical = .pointer) (hshape : t.shape = .pointer)
    (hrefs : ∀ r ∈ refs, r.NamesType) (hn : n.Declares x t (refs ++ [e]))
    (hbare : bare.Declares x t refs) (hrun : walk calls s bare w = .ok ⟨⟩ w₁)
    (he : Initialises (Global s w₁.pointers) (w₁.Unnamed s) path whole form typed e w₁.memory m)
    {c : Nat} (hplace : resolve s.types path m = .ok (some c) m₁)
    (harray : form = .array → ∃ id, m₁.At path c id ∧ (m₁.varOf id).kind = .array) :
    ∃ w', walk calls s n w = .ok ⟨⟩ w' ∧
      (w'.pointers.get? (ownedName s.name x)).join = if typed then none else some (c : Int) := by
  obtain ⟨hdeclared, hnone⟩ := hw.declares hpointer hrefs hbare hrun
  have hnone := hnone fun h => absurd hshape h
  obtain ⟨m₂, htargetRun, hchanges, howns, hsame⟩ :=
    pointerTarget_initialises he hdeclared.linked hplace
  generalize (if typed then none else some (c : Int)) = target at htargetRun howns
  have hdeclared₁ := hdeclared.changes hw.scope hw.name hchanges
  obtain ⟨b, j, hown, hisPointer, htarget⟩ := hdeclared₁.found
  have hold : m₂.OwnsTarget ((w₁.pointers.get? (ownedName s.name x)).join <|>
      remembered (some (j, m₂.varOf j))) := by
    rw [hnone]
    simp only [remembered, Variable.liveTarget, htarget]
    simpa using ownsTarget_none
  obtain ⟨_, w₂, hrepoint, m₃, m₄, hm₃, hm₄, hw₂⟩ := (repoint_at (s := s) hdeclared₁.linked
    (ownedName_ne_empty s.name x) hown hisPointer hold howns).exists_ok
  have haim : aimAt s (ownedName s.name x) e w₁ = .ok ⟨⟩ w₂ :=
    (bind_of_ok htargetRun).trans hrepoint
  -- an array is still there, and still an array
  have harray₄ : form = .array → ∃ a id, m₄.At path a id ∧ (m₄.varOf id).kind = .array := by
    intro hform
    obtain ⟨id, hat, hkind⟩ := harray hform
    rw [← hsame hform] at hat hkind
    have hkind₃ : (m₃.varOf id).kind = .array :=
      (Variable.eq_of_unmarked (hm₃.var id) fun _ => rfl).trans hkind
    refine ⟨c, id, At.marked (m := m₃.setVar j _)
      ⟨(hat.marked hm₃).address, (hat.marked hm₃).var⟩ hm₄, ?_⟩
    refine (Variable.eq_of_unmarked (hm₄.var id) fun _ => rfl).trans ?_
    rw [varOf_setVar]
    split
    · exact hkind₃
    · exact hkind₃
  have hnames : ∀ k, ¬ HasSteps k → m₄.names.get? k = w₁.memory.names.get? k := fun k hk => by
    rw [hm₄.names, show (m₃.setVar j _).names = m₃.names from rfl, hm₃.names]
    exact hchanges.address_whole hk
  have hwalk : Runs (walk calls s e) w₂ fun _ w' => w' = w₂ := by
    subst hw₂
    exact walk_initialises he hm₄.linked (fun n hn => hn.addressIn hw.scope hnames) harray₄
  obtain ⟨_, w₃, hwalk, hw₃⟩ := hwalk.exists_ok
  refine ⟨w₃, ?_, ?_⟩
  · rw [walk_declares_init calls s hrefs he.kind_ne hw.name.1 hn hbare]
    simp only [if_pos hshape]
    exact (bind_of_ok hrun).trans ((bind_of_ok haim).trans hwalk)
  · rw [hw₃, hw₂]
    show ((w₁.pointers.set _ _).get? _).join = _
    rw [Table.get?_set, if_pos rfl]
    rfl

theorem onMemory_analysis {α : Type} {y : MemM α} {v : α} {a : Analysis}
    (h : y a.memory = .ok v m) : Analysis.onMemory y a = .ok v { a with memory := m } := by
  rw [Analysis.onMemory, zoom, h]

/-- The target of an initialiser of a global pointer is the one that is looked up. -/
theorem initTarget_initialises (h : Initialises R free path whole form typed e m m₁) {a : Analysis}
    {target : Option Int} (hlookup : (if typed then pure none else
      form.lookup T a.pointers path whole) a.memory = .ok target m₂) :
    Analysis.initTarget T e a = .ok target { a with memory := m₂ } := by
  refine (bind_of_ok rfl).trans (onMemory_analysis ?_)
  rw [h.initialTarget]
  exact hlookup

/-- A type gives a global pointer no target. -/
theorem initPointer_typeRef {r : Node} (hr : r.NamesType)
    (a : Analysis) : Analysis.initPointer T x r a = .ok ⟨⟩ a := by
  have htarget : Analysis.initTarget T r a = .ok none a := by
    refine (bind_of_ok rfl).trans (onMemory_analysis ?_)
    rw [hr.initialTarget]
    rfl
  exact bind_of_ok htarget

/-- A global pointer is given the target of the path without a body, if the initialiser is an
address and in no cast that names a type. -/
theorem initPointer_initialises (h : Initialises R free path whole form typed e m m₁) {a : Analysis}
    (hl : Linked none a.memory) {found : Option Nat}
    (hfound : Node.lookup? T whole a.memory = .ok found m₂)
    (hpath : form = .array → (a.pointers.get? path).join = none)
    (hnone : (a.pointers.get? x).join = none) :
    ∃ a', Analysis.initPointer T x e a = .ok ⟨⟩ a' ∧ (a'.pointers.get? x).join =
      if form = .address ∧ typed = false then found.map Int.ofNat else none := by
  have hnothing {m₂ : Memory} (htarget : Analysis.initTarget T e a =
      .ok none { a with memory := m₂ }) :
      ∃ a', Analysis.initPointer T x e a = .ok ⟨⟩ a' ∧ (a'.pointers.get? x).join = none :=
    ⟨_, bind_of_ok htarget, hnone⟩
  cases typed with
  | true =>
    have htarget : Analysis.initTarget T e a = .ok none a := initTarget_initialises h rfl
    simpa using hnothing htarget
  | false =>
    cases form with
    | array =>
      have hlookup : InitForm.array.lookup T a.pointers path whole a.memory =
          .ok none a.memory := by
        rw [InitForm.lookup, hpath rfl]
        rfl
      simpa using hnothing (initTarget_initialises h hlookup)
    | address =>
      have htarget := initTarget_initialises (T := T) (a := a) h (bind_of_ok hfound)
      cases found with
      | none => simpa using hnothing htarget
      | some d =>
        cases whole with
        | none => cases hfound
        | some g =>
          obtain ⟨_, hd, b, hb⟩ := (owns_resolve hl hfound).exists_nat
          cases hd
          have hadded := Memory.addRef_eq ((changes_resolve hl hfound).after hl).linked hb x
          refine ⟨_, (bind_of_ok htarget).trans ((bind_of_ok rfl).trans
            (onMemory_analysis hadded)), ?_⟩
          show ((a.pointers.set x _).get? x).join = _
          rw [Table.get?_set, if_pos rfl]
          rfl

/-- The first child of the declaration of a global pointer is noted as its initialiser. -/
theorem addGlobal_declares (hx : x ≠ "") (ht : t.canonical = .pointer)
    {init : Node} {cs : List Node} {n : Node} (hn : n.Declares x t (init :: cs)) (p : Project) :
    ∃ p', Project.addGlobal n p = .ok ⟨⟩ p' ∧ p'.inits.get? x = some init := by
  cases hn with
  | @mk i d hkind hname htype =>
    subst hname
    have hdeclare : ∃ p₁, Project.declareGlobal i.spelling t p = .ok ⟨⟩ p₁ := by
      unfold Project.declareGlobal
      by_cases hknown : p.globals.contains i.spelling = true
      · exact ⟨p, (bind_of_ok rfl).trans (by rw [if_pos hknown]; rfl)⟩
      · exact ⟨_, (bind_of_ok rfl).trans (by rw [if_neg hknown]; rfl)⟩
    obtain ⟨p₁, hdeclare⟩ := hdeclare
    have htyped : Project.declaredType (.mk i (init :: cs) d) p = .ok t p := by
      simp only [Project.declaredType, Node.info, htype]
      rfl
    refine ⟨{ p₁ with inits := p₁.inits.set i.spelling init }, ?_, ?_⟩
    · unfold Project.addGlobal
      rw [show (Node.mk i (init :: cs) d).spelling = i.spelling from rfl, if_neg (not_isEmpty hx)]
      refine (bind_of_ok htyped).trans ((bind_of_ok hdeclare).trans ?_)
      rw [if_pos ht]
      rfl
    · show (p₁.inits.set _ _).get? _ = _
      rw [Table.get?_set, if_pos rfl]

variable (calls) in
/-- A pointer with a constant initialiser has the address of the place as its target, if it is
local.  If the same declaration is global, the pointer has the target of the path without a body, if
the initialiser is an address and is the first child of the declaration, and has no target
otherwise.  In a cast that names a type, an initialiser gives no target to either. -/
theorem initialised_targets {x : String} {t : NodeType} {refs : List Node} {e n bare : Node}
    {w₁ : Walk} (hw : w.Free s x) (hpointer : t.canonical = .pointer) (hshape : t.shape = .pointer)
    (hrefs : ∀ r ∈ refs, r.NamesType) (hn : n.Declares x t (refs ++ [e]))
    (hbare : bare.Declares x t refs) (hrun : walk calls s bare w = .ok ⟨⟩ w₁)
    (he : Initialises (Global s w₁.pointers) (w₁.Unnamed s) path whole form typed e w₁.memory m)
    {c : Nat} (hlocal : Memory.resolve s.types path m = .ok (some c) m₁)
    (harray : form = .array → ∃ id, m₁.At path c id ∧ (m₁.varOf id).kind = .array)
    {a : Analysis} (hl : Memory.Linked none a.memory) {found : Option Nat}
    (hglobal : Node.lookup? s.types whole a.memory = .ok found m₂)
    (hpath : form = .array → (a.pointers.get? path).join = none)
    (hnone : (a.pointers.get? x).join = none) (p : Project) :
    ∃ p' init a' w', Project.addGlobal n p = .ok ⟨⟩ p' ∧ p'.inits.get? x = some init ∧
      Analysis.initPointer s.types x init a = .ok ⟨⟩ a' ∧ walk calls s n w = .ok ⟨⟩ w' ∧
      (w'.pointers.get? (ownedName s.name x)).join = (if typed then none else some (c : Int)) ∧
      (a'.pointers.get? x).join =
        if refs = [] ∧ form = .address ∧ typed = false then found.map Int.ofNat else none := by
  obtain ⟨w', hwalk, htarget⟩ := walk_initialised_constant hw hpointer hshape hrefs hn hbare hrun he
    hlocal harray
  cases refs with
  | nil =>
    obtain ⟨p', hadd, hinit⟩ := addGlobal_declares hw.name.1 hpointer hn p
    obtain ⟨a', hrunInit, htarget'⟩ := initPointer_initialises he hl hglobal hpath hnone
    exact ⟨p', e, a', w', hadd, hinit, hrunInit, hwalk, htarget, by simpa using htarget'⟩
  | cons r refs =>
    obtain ⟨p', hadd, hinit⟩ := addGlobal_declares hw.name.1 hpointer hn p
    refine ⟨p', r, a, w', hadd, hinit,
      initPointer_typeRef (hrefs r (List.mem_cons_self ..)) a, hwalk, htarget, ?_⟩
    rw [hnone, if_neg fun h => List.cons_ne_nil _ _ h.1]

/-! ## Elements and words -/

/-- The tree of `&a[1]`. -/
def addressOfElement : Node := leading "&" (elementOf "a" one)

/-- A file with `int a[16]` and a function `f` with a body. -/
def rowFile (body : List Node) : Files :=
  fileOf [declarationOf .varDecl "a" "int[16]" .array, definedAs "f" body]

theorem initialised_targets_element :
    ∃ p p' init a' w', Project.prepare (rowFile []) "/p" {} = .ok ⟨⟩ p ∧
      (localP pointerType [addressOfElement]).Declares "p" pointerType ([] ++ [addressOfElement]) ∧
      Project.addGlobal (localP pointerType [addressOfElement]) p = .ok ⟨⟩ p' ∧
      p'.inits.get? "p" = some init ∧
      Analysis.initPointer p.types "p" init p.analysis = .ok ⟨⟩ a' ∧
      walk p.analysis.index (linkScope p) (localP pointerType [addressOfElement])
        (entering p.analysis) = .ok ⟨⟩ w' ∧
      (w'.pointers.get? "<f>p").join = some 4 ∧ (a'.pointers.get? "p").join = some 3 := by
  have hrun : ((after? (Project.prepare (rowFile []) "/p" {})).bind fun p =>
      (after? (walk p.analysis.index (linkScope p) (localP pointerType [])
        (entering p.analysis))).map fun w₁ =>
        ((p.analysis.pointers.get? "p").join,
          [p.analysis.memory.address? "<f>p", w₁.memory.address? "<f>a", w₁.memory.address? "a",
            (w₁.memory.block? 1).map Block.var,
            (value? (Memory.resolve p.types "a[1]" p.analysis.memory)).join,
            (value? (Memory.resolve p.types "a[1]" w₁.memory)).join],
          [(w₁.memory.varOf 0).isPointer, w₁.pointers.contains "<f>a",
            w₁.pointers.contains "a"])) =
      some (none, [none, none, some 1, some 0, some 3, some 4], [false, false, false]) := by
    decide +kernel
  obtain ⟨p, hp, hr⟩ := ok_of_bind hrun
  obtain ⟨w₁, hwalk, hvalues⟩ := ok_of_map hr
  simp only [Prod.mk.injEq, List.cons.injEq, and_true, Option.join_eq_some_iff] at hvalues
  obtain ⟨hnone, ⟨hfree, hown, ha, haVar, hplace, hplace₁⟩, hapointer, hakeys⟩ := hvalues
  obtain ⟨m₂, hplace⟩ := exists_of_value? hplace
  obtain ⟨m₁, hplace₁⟩ := exists_of_value? hplace₁
  have hreached : Project.Reached (rowFile []) "p" p := .read hp
  have hlinked := hreached.aimed.analysis.memory.linked
  obtain ⟨b, hb, hbVar⟩ := Option.map_eq_some_iff.mp haVar
  have hglobal : Global (linkScope p) w₁.pointers "a" w₁.memory w₁.memory :=
    ⟨Memory.resolve_unknown _ (by decide : ownedName "f" "a" ≠ "")
      (ownedName_plain (by decide : IsName "f") (by decide)) hown,
      ⟨1, b, Memory.resolve_known _ (by decide) ha, hb, hbVar ▸ hapointer⟩, hakeys⟩
  obtain ⟨p', init, a', w', hadd, hinit, hglobalRun, hlocalRun, htarget, htarget'⟩ :=
    initialised_targets p.analysis.index (s := linkScope p)
      ⟨hlinked, (by decide : IsName "f"), by decide, hfree⟩ rfl rfl (by simp)
      (.mk rfl rfl rfl : (localP pointerType [addressOfElement]).Declares "p" pointerType
        ([] ++ [addressOfElement]))
      (.mk rfl rfl rfl) hwalk
      (.address rfl (by decide)
        (.element rfl (.var rfl (by decide)) hglobal (.inert (.mk rfl (by simp)))))
      hplace₁ (fun h => absurd h (by decide)) hlinked hplace (fun h => absurd h (by decide)) hnone p
  exact ⟨p, p', init, a', w', hp, .mk rfl rfl rfl, hadd, hinit, hglobalRun, hlocalRun,
    htarget, htarget'⟩

/-- The declaration `word *name = &x`. -/
def wordPointer (name : String) : Node :=
  declaredWith .varDecl name "word *" .pointer
    [.mk { kind := .typeRef, spelling := "word" } [] none, addressOfX]

/-- A file with a type `word`, a variable `word x`, a global pointer `p` to it, and a function `f`
with a local pointer `q` to it. -/
def wordFile : Files := fileOf
  [typedefOf "word" "int", declarationOf .varDecl "x" "word" .other, wordPointer "p",
    definedAs "f" [wordPointer "q"]]

/-- With `word *p = &x` and a local `word *q = &x`, only `q` points to `x`. -/
theorem global_target_lost :
    ∃ p p' f, Project.prepare wordFile "/p" {} = .ok ⟨⟩ p ∧ Project.analyse 0 p = .ok ⟨⟩ p' ∧
      p'.record? 0 = some f ∧ p'.analysis.memory.address? "x" = some 1 ∧
      p'.analysis.memory.address? "<f>q" = some 3 ∧ (p.analysis.pointers.get? "p").join = none ∧
      f.pointerEnds.entries = [(2, none), (3, some 1)] := by
  have hrun : Project.firstRun? wordFile (fun p p' f =>
      ([p'.analysis.memory.address? "x", p'.analysis.memory.address? "<f>q"],
        (p.analysis.pointers.get? "p").join, f.pointerEnds.entries)) =
      some ([some 1, some 3], none, [(2, none), (3, some 1)]) := by decide +kernel
  obtain ⟨p, p', f, hp, hp', hf, hvalues⟩ := Project.exists_of_firstRun? hrun
  simp only [Prod.mk.injEq, List.cons.injEq, and_true] at hvalues
  obtain ⟨⟨hx, hq⟩, hp₀, hends⟩ := hvalues
  exact ⟨p, p', f, hp, hp', hf, hx, hq, hp₀, hends⟩

end Walk

end Footprint
