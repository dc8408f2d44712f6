import Footprint.Proofs.Guard.Walk
import Footprint.Proofs.StraightLine.Simulation

/-!
# Walking expressions and left sides

The walk over an expression notes the reads of the expression, in order.  The
walk over a left side notes a write, or a read and a write.  Both leave the
variables and their targets as they are.
-/

namespace Footprint.StraightLine

open Walk Node

open Memory (Linked Marked Adds)

/-- A property of the memory that a function leaves alone: it does not depend on marks, nor on the
variables of the function, nor on where the pointers point that may be moved. -/
structure Spared (f : String) where
  holds : Memory → Prop
  moves : Var → Prop
  own : ∀ x, moves (.own x)
  marked : ∀ {m m'}, holds m → Marked m m' → holds m'
  adds : ∀ {m m' x id}, holds m → Linked none m → Adds m (ownedName f x) id m' →
    (id < m.vars.size → (m.varOf id).name = ownedName f x) → holds m'
  moved : ∀ {m p a id target}, holds m → Linked none m → moves p → m.At (p.full f) a id →
    holds (m.setVar id fun v => { v with target })

/-- The state of a walk agrees with the declared variables, their targets, and the accesses so
far. -/
structure Tracks (s : Scope) (K : Spared s.name) (f₀ : Function) (pointees : List String)
    (Γ : Decls) (τ : Targets String) (es : List (Access String)) (w : Walk) : Prop where
  sim : Sim s.name pointees Γ τ w.memory w.pointers
  logged : Logged f₀ s.root es w
  kept : K.holds w.memory

section Tracks

variable {s : Scope} {K : Spared s.name} {f₀ : Function} {pointees : List String} {Γ : Decls}
variable {τ : Targets String} {es : List (Access String)} {w : Walk} {calls : CallIndex}

/-! ## Marks -/

/-- A use of a block that is no pointer. -/
theorem Tracks.mark (h : Tracks s K f₀ pointees Γ τ es w) {n : String} {a : Nat} {id : VarId}
    (hat : w.memory.At n a id) (hp : (w.memory.varOf id).isPointer = false) (u : Use) :
    Runs (mark s u a) w fun _ w' => Tracks s K f₀ pointees Γ τ (es ++ [.of n u]) w' ∧
      w'.memory.At n a id ∧ (w'.memory.varOf id).isPointer = false := by
  obtain ⟨b, hb, _⟩ := hat.exists_block
  have hmarked : ∀ {m : Memory}, Marked w.memory m →
      Sim s.name pointees Γ τ m w.pointers ∧ K.holds m ∧ m.At n a id ∧
        (m.varOf id).isPointer = false := by
    intro m hm
    exact ⟨h.sim.marked hm, K.marked h.kept hm, hat.marked hm,
      (Variable.eq_of_unmarked (hm.var id) fun _ => rfl).trans hp⟩
  refine .bind_ok (variableAt_at h.sim.linked hat) ?_
  dsimp only
  rw [hat.name h.sim.linked, hp]
  cases u with
  | read =>
    refine .bind_ok rfl ?_
    split
    · next hc =>
      have hn : n ∈ w.written := List.contains_iff_mem.mp hc
      exact .pure ⟨⟨h.sim, h.logged.read_written hn, h.kept⟩, hat, hp⟩
    · next hc =>
      have hn : n ∉ w.written := fun hn => hc (List.contains_iff_mem.mpr hn)
      refine Ends.bind (Ends.zoom ?_)
      refine Runs.mono (Memory.read_marked h.sim.linked hb s.name) ?_
      intro _ m hm
      obtain ⟨hsim, hkept, hat', hp'⟩ := hmarked hm
      exact Ends.modify ⟨⟨hsim, h.logged.read_noted hn rfl rfl, hkept⟩, hat', hp'⟩
  | write =>
    refine Ends.bind (Ends.zoom ?_)
    refine Runs.mono (Memory.write_marked h.sim.linked hb s.name) ?_
    intro _ m hm
    obtain ⟨hsim, hkept, hat', hp'⟩ := hmarked hm
    exact .bind_ok rfl (Ends.modify ⟨⟨hsim, h.logged.write rfl rfl, hkept⟩, hat', hp'⟩)

/-- Uses of a block that is no pointer, one after the other. -/
theorem Tracks.markEach {n : String} {a : Nat} {id : VarId} (uses : List Walk.Use) :
    ∀ {es : List (Access String)} {w : Walk}, Tracks s K f₀ pointees Γ τ es w → w.memory.At n a id →
      (w.memory.varOf id).isPointer = false →
      Runs (uses.forM fun u => Walk.mark s u a) w fun _ w' =>
        Tracks s K f₀ pointees Γ τ (es ++ uses.map (.of n)) w' := by
  induction uses with
  | nil =>
    intro es w h _ _
    exact Ends.pure (by simpa using h)
  | cons u uses ih =>
    intro es w h hat hp
    refine Runs.bind (h.mark hat hp u) ?_
    rintro _ w' ⟨h', hat', hp'⟩
    refine Runs.mono (ih h' hat' hp') ?_
    intro _ w'' h''
    simpa using h''

variable {n c : Node} {x p : Var} {i : NodeInfo} {cs : List Node} {l : Place}

/-- Uses of a declared scalar. -/
theorem Tracks.markNamed (h : Tracks s K f₀ pointees Γ τ es w) (hx : x.Is Γ .scalar)
    (uses : List Walk.Use) :
    Runs (Walk.markNamed s uses x.name) w
      fun _ w' => Tracks s K f₀ pointees Γ τ (es ++ uses.map (.of (x.full s.name))) w' := by
  obtain ⟨a, id, hat, hform, haddr⟩ := h.sim.addressIn hx (by decide)
  rw [Walk.markNamed, if_neg (not_isEmpty hx.1.1)]
  exact .bind_ok haddr (h.markEach uses hat (not_pointer_of_form hform))

/-! ## The names in an expression -/

theorem accessName_declRef {d : Option Node} (hk : i.kind = .declRef) :
    accessName s (.mk i cs d) = pure (some i.spelling) := by
  unfold accessName
  simp only [hk]

theorem accessName_var (hn : (Expr.use (.var x)).Parsed n) :
    accessName s n = pure (some x.name) := by
  generalize he : Expr.use (.var x) = e at hn
  induction hn with
  | var hk hs =>
    cases he
    rw [accessName_declRef hk, hs]
  | implicit hk _ ih =>
    rw [accessName]
    simp only [hk]
    exact ih he
  | deref => cases he
  | literal => cases he
  | paren => cases he
  | binary => cases he

theorem operatorOf_deref (hp : IsName p.name)
    (ht : i.tokens = ["*", p.name]) : operatorOf i = "*" := by
  refine operatorOf_name hp (by decide) fun t => ?_
  simp [ht]

theorem accessName_deref (hn : (Expr.use (.deref p)).Parsed n)
    (hp : IsName p.name) : accessName s n = pure none := by
  generalize he : Expr.use (.deref p) = e at hn
  induction hn with
  | deref hk ht _ _ =>
    cases he
    rw [accessName]
    simp [hk, operatorOf_deref hp ht]
  | implicit hk _ ih =>
    rw [accessName]
    simp only [hk]
    exact ih he
  | var => cases he
  | literal => cases he
  | paren => cases he
  | binary => cases he

theorem pointerName_var (hn : (Expr.use (.var x)).Parsed n) :
    pointerName s n = pure (some x.name) := by
  generalize he : Expr.use (.var x) = e at hn
  induction hn with
  | var hk hs =>
    cases he
    rw [pointerName]
    simp only [hk, hs]
  | implicit hk _ ih =>
    rw [pointerName]
    simp only [hk]
    exact ih he
  | deref => cases he
  | literal => cases he
  | paren => cases he
  | binary => cases he

theorem derefTarget_var {key : String} {t : Option Int}
    (hkey : pointerKey s p.name w = .ok (some key) w) (ht : targetOf s key w = .ok t w)
    (hc : (Expr.use (.var p)).Parsed c) : derefTarget s c w = .ok t w := by
  unfold derefTarget
  rw [pointerName_var hc]
  refine (bind_of_ok rfl).trans ?_
  exact (bind_of_ok hkey).trans ht

theorem Sim.derefTarget (h : Sim s.name pointees Γ τ w.memory w.pointers) (hf : IsName s.name)
    (hp : p.Is Γ .pointer) (hc : (Expr.use (.var p)).Parsed c) :
    derefTarget s c w = .ok (w.pointers.get? (p.full s.name)).join w :=
  derefTarget_var (h.pointerKey_pointer hf hp) (h.targetOf hp) hc

/-! ## Nodes that group their children -/

/-- The steps of some nodes are taken in the order of the nodes. -/
theorem inOrder_walkEach (cs : List Node) :
    inOrder (walkEach calls s cs) = (ordered cs).map (walk calls s) := by
  rw [walkEach_eq, ordered, ← inOrder_map, List.map_map]
  rfl

theorem mem_ordered : c ∈ ordered cs ↔ c ∈ cs := by
  simp [ordered, mem_inOrder]

theorem walk_group {d : Option Node} (hk : groups i.kind = true) : walk calls s (.mk i cs d) =
    ((ordered cs).map (walk calls s)).forM id := by
  rw [← inOrder_walkEach]
  unfold walk
  cases hkind : i.kind with
  | varDecl | declRef | memberRef | subscript | call | unary | binary | compoundAssign =>
    rw [hkind] at hk
    cases hk
  | functionDecl | structDecl | unionDecl | typedefDecl | enumDecl | fieldDecl | paramDecl
  | typeRef | conditional | paren | cast | implicit | integer | other => rfl

/-! ## The walk by kind of node -/

section Kinds

variable {i : NodeInfo} {d : Option Node} {a b : Node} {cs : List Node}

theorem walk_declRef (hk : i.kind = .declRef) :
    walk calls s (.mk i cs d) = readAccess s (.mk i cs d) := by
  unfold walk
  simp only [hk]

theorem walk_deref (hk : i.kind = .unary) (hop : operatorOf i = "*") :
    walk calls s (.mk i [a] d) = readDeref s (some a) := by
  cases a
  unfold walk
  simp [hk, hop]

theorem walk_address (hk : i.kind = .unary) (hop : operatorOf i = "&")
    (ha : a.kind ≠ .subscript) : walk calls s (.mk i [a] d) = pure ⟨⟩ := by
  cases a with
  | mk j ds e =>
    have ha : j.kind ≠ .subscript := ha
    unfold walk
    simp [hk, hop, ha]

theorem walk_bump (hk : i.kind = .unary) (hop : operatorOf i ∈ ["++", "--"]) :
    walk calls s (.mk i [a] d) = assign calls s [.read, .write] a := by
  cases a
  unfold walk
  simp only [List.mem_cons, List.not_mem_nil, or_false] at hop
  cases hop with
  | inl hop => simp [hk, hop]
  | inr hop => simp [hk, hop]

theorem walk_value (hk : i.kind = .binary) (hop : Harmless (operatorOf i)) :
    walk calls s (.mk i [a, b] d) = (do
      walk calls s a
      walk calls s b) := by
  conv => lhs; unfold walk
  simp [hk, hop.1, hop.2]

theorem walk_assign (hk : i.kind = .binary) (hop : operatorOf i = "=") :
    walk calls s (.mk i [a, b] d) = (do
      match ← assignedPointer s a with
      | some key => do
        let target ← pointerTarget s b
        repoint s key target
        walk calls s b
      | none => do
        walk calls s b
        assign calls s [.write] a) := by
  conv => lhs; unfold walk
  simp only [hk, hop]
  rfl

theorem walk_update (hk : i.kind = .compoundAssign)
    (hop : operatorOf i ∈ compoundOperators) :
    walk calls s (.mk i [a, b] d) = (do
      assign calls s [.read, .write] a
      walk calls s b) := by
  have hne : operatorOf i ≠ "=" := by
    intro he
    rw [he] at hop
    exact absurd hop (by decide)
  conv => lhs; unfold walk
  simp [hk, hop, hne]

end Kinds

/-! ## Expressions -/

/-- A read of a declared scalar. -/
theorem Tracks.readAccess (h : Tracks s K f₀ pointees Γ τ es w) (hx : x.Is Γ .scalar)
    (hn : (Expr.use (.var x)).Parsed n) :
    Runs (Walk.readAccess s n) w
      fun _ w' => Tracks s K f₀ pointees Γ τ (es ++ [.read (x.full s.name)]) w' := by
  obtain ⟨a, id, hat, hform, haddr⟩ := h.sim.addressIn hx (by decide)
  unfold Walk.readAccess
  rw [accessName_var hn]
  refine .bind_ok rfl (.bind_ok haddr (.bind_ok (variableAt_at h.sim.linked hat) ?_))
  dsimp only
  rw [kind_of_form hform, if_neg (by simp)]
  exact h.markNamed hx [.read]

/-- The walk over an expression notes what the expression reads. -/
theorem Tracks.walk_expr (hf : IsName s.name) {e : Expr} (hn : e.Parsed n) :
    ∀ {es : List (Access String)} {w : Walk}, e.Scoped Γ → Tracks s K f₀ pointees Γ τ es w →
      Runs (walk calls s n) w
        fun _ w' =>
          Tracks s K f₀ pointees Γ τ (es ++ (e.reads (Var.full s.name) τ).map .read) w' := by
  induction hn with
  | var hk hs =>
    intro es w hx h
    rw [walk_declRef hk]
    exact h.readAccess hx (.var hk hs)
  | @deref p i c d hk ht hc _ =>
    intro es w hp h
    rw [walk_deref hk (operatorOf_deref hp.1 ht)]
    refine .bind_ok (h.sim.derefTarget hf hp hc) ?_
    cases h.sim.target_cases hp with
    | inl hnone =>
      rw [hnone.1]
      refine Ends.pure ?_
      simpa [Expr.reads, Place.scalar, hnone.2] using h
    | inr hsome =>
      obtain ⟨t, a, id, hjoin, ht, hat, hvar⟩ := hsome
      rw [hjoin]
      refine Runs.mono (h.mark hat hvar .read) ?_
      intro _ w' h'
      simpa [Expr.reads, Place.scalar, ht, Access.of] using h'.1
  | literal hk =>
    intro es w _ h
    rw [walk_group hk]
    exact Ends.pure (by simpa [Expr.reads] using h)
  | implicit hk _ ih =>
    intro es w he h
    rw [walk_group (by rw [hk]; rfl)]
    exact Runs.bind (ih he h) fun _ _ h' => .pure h'
  | paren hk _ ih =>
    intro es w he h
    rw [walk_group (by rw [hk]; rfl)]
    exact Runs.bind (ih he h) fun _ _ h' => .pure h'
  | @binary op l r i a b d hk ht _ _ iha ihb =>
    intro es w he h
    have hop : Harmless (operatorOf i) :=
      operatorOf_harmless fun t hmem => Expr.Scoped.harmless he t (ht ▸ hmem)
    rw [walk_value hk hop]
    refine Runs.bind (iha he.2.1 h) fun _ w' h' => Runs.mono (ihb he.2.2 h') ?_
    intro _ w'' h''
    simpa [Expr.reads] using h''

/-! ## Left sides -/

/-- What uses of a place access. -/
def Place.used (f : String) (τ : Targets String) (uses : List Use) (l : Place) :
    List (Access String) :=
  (l.scalar (Var.full f) τ).toList.flatMap fun n => uses.map (.of n)

/-- An assignment to a left side that is a scalar. -/
theorem Tracks.assignNamed (h : Tracks s K f₀ pointees Γ τ es w) (hf : IsName s.name)
    (hx : x.Is Γ .scalar) (hn : (Expr.use (.var x)).Parsed n) (uses : List Walk.Use) :
    Runs (Walk.assignNamed s uses n) w
      fun _ w' => Tracks s K f₀ pointees Γ τ (es ++ (Place.var x).used s.name τ uses) w' := by
  unfold Walk.assignNamed
  rw [accessName_var hn]
  refine .bind_ok rfl (.bind_ok (h.sim.pointerKey_scalar hf hx) ?_)
  refine Runs.mono (h.markNamed hx uses) ?_
  intro _ w' h'
  simpa [Place.used, Place.scalar] using h'

/-- An assignment through a pointer. -/
theorem Tracks.assignDeref (h : Tracks s K f₀ pointees Γ τ es w) (hf : IsName s.name)
    (hp : p.Is Γ .pointer) (hc : (Expr.use (.var p)).Parsed c) (uses : List Walk.Use) :
    Runs (Walk.assignDeref s uses (some c)) w
      fun _ w' => Tracks s K f₀ pointees Γ τ (es ++ (Place.deref p).used s.name τ uses) w' := by
  unfold Walk.assignDeref
  dsimp only
  rw [pointerName_var hc]
  refine .bind_ok rfl (.bind_ok (h.sim.pointerKey_pointer hf hp) (.bind_ok (bind_of_ok rfl) ?_))
  cases h.sim.target_cases hp with
  | inl hnone =>
    rw [hnone.1]
    refine Ends.pure ?_
    simpa [Place.used, Place.scalar, hnone.2] using h
  | inr hsome =>
    obtain ⟨t, a, id, hjoin, ht, hat, hvar⟩ := hsome
    rw [hjoin]
    refine Runs.mono (h.markEach uses hat hvar) ?_
    intro _ w' h'
    simpa [Place.used, Place.scalar, ht] using h'

/-- The walk over a left side notes its uses. -/
theorem Tracks.assign_place (h : Tracks s K f₀ pointees Γ τ es w) (hf : IsName s.name)
    (hl : l.Scoped Γ) (hn : (Expr.use l).Parsed n) (uses : List Use) :
    Runs (assign calls s uses n) w
      fun _ w' => Tracks s K f₀ pointees Γ τ (es ++ l.used s.name τ uses) w' := by
  generalize he : Expr.use l = e at hn
  induction hn with
  | @var x i d hk hs =>
    cases he
    rw [assign]
    simp only [hk]
    exact h.assignNamed hf hl (.var hk hs) uses
  | @deref p i c d hk ht hc =>
    cases he
    rw [assign]
    simp only [hk, operatorOf_deref hl.1 ht]
    exact h.assignDeref hf hl hc uses
  | implicit hk _ ih =>
    rw [assign]
    simp only [hk]
    exact ih he
  | literal => cases he
  | paren => cases he
  | binary => cases he

theorem pointerBehindLeft_none (hk : n.kind ≠ .unary) : pointerBehindLeft s n = pure none := by
  unfold pointerBehindLeft
  rw [if_neg (by simp [hk])]

/-- What a declared pointer points to is no pointer. -/
theorem Sim.pointerBehind (h : Sim s.name pointees Γ τ w.memory w.pointers) (hf : IsName s.name)
    (hp : p.Is Γ .pointer) (hc : (Expr.use (.var p)).Parsed c) :
    pointerBehind s (some c) w = .ok none w := by
  refine (bind_of_ok (h.derefTarget hf hp hc)).trans ?_
  cases h.target_cases hp with
  | inl hnone =>
    rw [hnone.1]
    rfl
  | inr hsome =>
    obtain ⟨t, a, id, hjoin, _, hat, hvar⟩ := hsome
    rw [hjoin]
    refine (bind_of_ok (variableAt_at h.linked hat)).trans ?_
    show EStateM.Result.ok
      (if (w.memory.varOf id).isPointer then some (w.memory.varOf id).name else none) w = _
    rw [hvar]
    rfl

theorem Sim.pointerBehindLeft (h : Sim s.name pointees Γ τ w.memory w.pointers) (hf : IsName s.name)
    (hl : l.Scoped Γ) (hn : (Expr.use l).Parsed n) : pointerBehindLeft s n w = .ok none w := by
  cases hn with
  | var hk _ =>
    rw [pointerBehindLeft_none (by simp [kind, info, hk])]
    rfl
  | implicit hk _ =>
    rw [pointerBehindLeft_none (by simp [kind, info, hk])]
    rfl
  | deref hk ht hc =>
    unfold pointerBehindLeft
    rw [if_pos (by simp [kind, info, hk, operatorOf_deref hl.1 ht])]
    exact h.pointerBehind hf hl hc

/-- An assignment to a left side that is a scalar assigns no pointer. -/
theorem Sim.assignedPointer_scalar (h : Sim s.name pointees Γ τ w.memory w.pointers)
    (hf : IsName s.name) (hl : l.Scoped Γ)
    (hn : (Expr.use l).Parsed n) : assignedPointer s n w = .ok none w := by
  refine (bind_of_ok (h.pointerBehindLeft hf hl hn)).trans ?_
  cases l with
  | var x =>
    rw [accessName_var hn]
    exact (bind_of_ok rfl).trans (h.pointerKey_scalar hf hl)
  | deref p =>
    rw [accessName_deref hn hl.1]
    exact bind_of_ok rfl

/-- An assignment to a pointer. -/
theorem assignedPointer_var {key : Option String} (hkey : pointerKey s p.name w = .ok key w)
    (hn : (Expr.use (.var p)).Parsed n) : assignedPointer s n w = .ok key w := by
  have hbehind : pointerBehindLeft s n = pure none := by
    cases hn with
    | var hk _ => exact pointerBehindLeft_none (by simp [kind, info, hk])
    | implicit hk _ => exact pointerBehindLeft_none (by simp [kind, info, hk])
  unfold assignedPointer
  rw [hbehind]
  refine (bind_of_ok rfl).trans ?_
  rw [accessName_var hn]
  exact (bind_of_ok rfl).trans hkey

end Tracks

end Footprint.StraightLine
