import Footprint.Proofs.Memory.Reached
import Footprint.Proofs.StraightLine.Names
import Footprint.Proofs.StraightLine.Parameters

/-!
# The analysis of straight-line functions

A function with a straight-line body is analysed without a fault, and what the
analysis finds is what the body accesses: the scalars that it writes, and the
scalars that it reads before it writes them.

Two things are asked of the declarations beyond that.  Their types must be ones
that the type table knows, and no parameter or local may be called like the
block that a pointer parameter is given to point to.  Without either, the
statement fails.
-/

namespace Footprint.StraightLine

open Analysis Memory

open Memory (Linked Marked)

/-! ## The scan for arrays -/

/-- Nothing in the tree is indexed or called. -/
inductive Flat : Node → Prop where
  | mk {i : NodeInfo} {cs : List Node} {d : Option Node} : i.kind ≠ .subscript →
      i.kind ≠ .call → (∀ c ∈ cs, Flat c) → Flat (.mk i cs d)

variable {i : NodeInfo} {cs : List Node} {d : Option Node} {n : Node} {sts : List Stmt}
variable {T : TypeTable}

theorem Flat.of_groups
    (hk : groups i.kind = true) (hcs : ∀ c ∈ cs, Flat c) : Flat (.mk i cs d) := by
  refine .mk ?_ ?_ hcs
  · intro hc
    simp [hc, groups] at hk
  · intro hc
    simp [hc, groups] at hk

theorem Flat.of_kind {k : NodeKind} (hk : i.kind = k) (hne : k ≠ .subscript ∧ k ≠ .call)
    (hcs : ∀ c ∈ cs, Flat c) : Flat (.mk i cs d) :=
  .mk (hk ▸ hne.1) (hk ▸ hne.2) hcs

theorem Inert.flat (h : Inert n) : Flat n := by
  induction h with
  | mk hk _ ih => exact .of_groups hk ih

theorem Expr.Parsed.flat {e : Expr} (h : e.Parsed n) : Flat n := by
  induction h with
  | var hk _ => exact .of_kind hk (by decide) (by simp)
  | deref hk _ _ ih => exact .of_kind hk (by decide) (by simpa using ih)
  | literal hk => exact .of_groups hk (by simp)
  | implicit hk _ ih => exact .of_kind hk (by decide) (by simpa using ih)
  | paren hk _ ih => exact .of_kind hk (by decide) (by simpa using ih)
  | binary hk _ _ _ iha ihb => exact .of_kind hk (by decide) (by simpa using ⟨iha, ihb⟩)

theorem AddressParsed.flat {x : Var} (h : AddressParsed x n) : Flat n := by
  induction h with
  | address hk _ hc => exact .of_kind hk (by decide) (by simpa using hc.flat)
  | implicit hk _ ih => exact .of_kind hk (by decide) (by simpa using ih)

theorem Stmt.Parsed.flat {st : Stmt} (h : st.Parsed n) : Flat n := by
  cases h with
  | assign hk _ ha hb => exact .of_kind hk (by decide) (by simpa using ⟨ha.flat, hb.flat⟩)
  | update hk _ ha hb => exact .of_kind hk (by decide) (by simpa using ⟨ha.flat, hb.flat⟩)
  | bump hk _ hc => exact .of_kind hk (by decide) (by simpa using hc.flat)
  | point hk _ ha hb => exact .of_kind hk (by decide) (by simpa using ⟨ha.flat, hb.flat⟩)
  | copy hk _ ha hb => exact .of_kind hk (by decide) (by simpa using ⟨ha.flat, hb.flat⟩)
  | declare hk _ _ _ _ _ hcs => exact .of_kind hk (by decide) fun c hc => (hcs c hc).flat

mutual

theorem Parsed.flat : ∀ {sts : List Stmt} {n : Node}, Parsed sts n → Flat n
  | _, _, .stmt h => h.flat
  | _, _, .group hk hcs => .of_groups hk fun c hc => hcs.flat c (mem_ordered.mpr hc)

theorem ParsedEach.flat : ∀ {sts : List Stmt} {cs : List Node}, ParsedEach sts cs →
    ∀ c ∈ cs, Flat c
  | _, _, .nil, _, hc => nomatch hc
  | _, _, .cons hn hcs, c, hc => by
      cases hc with
      | head => exact hn.flat
      | tail _ hc => exact hcs.flat c hc

end

theorem Defines.flat (h : Defines sts n) : Flat n := by
  cases n with
  | mk i cs d =>
    exact .of_kind h.kind (by decide) fun c hc => h.body.flat c (mem_ordered.mpr hc)

section Scan

variable {callee? : String → Option Function} {params : Scan.Params} {m : Memory}

theorem scanEach_same {cs : List Node}
    (h : ∀ c ∈ cs, Scan.scan callee? params c m = .ok ⟨⟩ m) :
    Scan.scanEach callee? params cs m = .ok ⟨⟩ m := by
  induction cs with
  | nil => rfl
  | cons c cs ih =>
    unfold Scan.scanEach
    refine (bind_of_ok (h c (List.mem_cons_self ..))).trans ?_
    exact ih fun c' hc' => h c' (List.mem_cons_of_mem c hc')

/-- The scan of a tree without indices and calls notes nothing. -/
theorem scan_flat {n : Node} (hn : Flat n) : Scan.scan callee? params n m = .ok ⟨⟩ m := by
  induction hn with
  | @mk i cs d hsub hcall _ ih =>
    have hnode : Scan.noteNode callee? params (.mk i cs d) = pure ⟨⟩ := by
      unfold Scan.noteNode
      split
      · next hk _ => exact absurd hk hsub
      · next hk => exact absurd hk hcall
      · rfl
    unfold Scan.scan
    rw [hnode]
    exact (bind_of_ok rfl).trans (scanEach_same ih)

/-- The pointer parameters are found if there is a function before each name. -/
theorem exists_paramsOf {ids : List VarId} (h : ∀ id ∈ ids, (m.varOf id).domain = .param →
    (m.varOf id).isPointer = true → '>' ∈ (m.varOf id).name.toList) :
    ∀ found, ∃ params, Scan.paramsOf m found ids = .ok params := by
  induction ids with
  | nil => exact fun found => ⟨found, rfl⟩
  | cons id ids ih =>
    intro found
    obtain ⟨hid, hids⟩ := List.forall_mem_cons.mp h
    unfold Scan.paramsOf
    dsimp only
    split
    · next hpointer =>
      obtain ⟨hdomain, hpointer⟩ := Bool.and_eq_true_iff.mp hpointer
      have hmem := hid (of_decide_eq_true hdomain) hpointer
      obtain ⟨x, hx⟩ := Option.isSome_iff_exists.mp (Text.isSome_after? (p := ">") rfl hmem)
      rw [hx]
      exact ih hids _
    · exact ih hids found

/-- The scan of a function without indices and calls notes nothing. -/
theorem scanFunction_flat {f : Function} {body : Node} (hbody : f.body = some body)
    (hflat : Flat body)
    (hname : ∀ id ∈ f.vars.values, ∃ x, (m.varOf id).name = ownedName f.name.plain x) :
    Scan.scanFunction callee? f m = .ok ⟨⟩ m := by
  have hmem (id : VarId) (hid : id ∈ f.vars.values) : '>' ∈ (m.varOf id).name.toList := by
    obtain ⟨x, hx⟩ := hname id hid
    rw [hx, toList_ownedName]
    simp
  obtain ⟨params, hparams⟩ := exists_paramsOf (fun id hid _ _ => hmem id hid) {}
  refine (bind_of_ok rfl).trans ((bind_of_ok (orFault_of_ok hparams m)).trans ?_)
  rw [hbody]
  dsimp only
  split
  · rfl
  · exact scan_flat hflat

end Scan

/-! ## The end of a function -/

section Ends

variable {s : Scope} {K : Spared s.name} {f₀ : Function} {pointees : List String} {Γ : Decls}
variable {τ : Targets String} {es : List (Access String)} {w : Walk} {calls : CallIndex}

/-- A change of the record that leaves reads and writes as they are. -/
theorem Logged.changeRoot {root : Nat} (h : Logged f₀ root es w) {g : Function → Function}
    (hreads : ∀ f, (g f).reads = f.reads) (hwrites : ∀ f, (g f).writes = f.writes) :
    Logged f₀ root es { w with functions := w.functions.modify root g } := by
  obtain ⟨f, hf, hr, hw⟩ := h.record
  refine ⟨⟨g f, ?_, ?_, ?_⟩, h.written⟩
  · rw [Array.getElem?_modify, if_pos rfl, hf]
    rfl
  · rw [hreads]
    exact hr
  · rw [hwrites]
    exact hw

/-- The end of a pointer of the table is noted. -/
theorem Tracks.noteEnd (h : Tracks s K f₀ pointees Γ τ es w) {k : String} {t : Option Int}
    (hk : w.pointers.get? k = some t) (target : Option Int) :
    Runs (noteEnd s k target) w fun _ w' =>
      Tracks s K f₀ pointees Γ τ es w' ∧ w'.pointers = w.pointers := by
  by_cases hne : k = ""
  · subst hne
    exact .bind_ok (a := none) rfl (.pure ⟨h, rfl⟩)
  · obtain ⟨a, id, hat, hp⟩ := h.sim.keys k t hk
    refine .bind_ok (addressOf_at hne hat) (.bind_ok (variableAt_at h.sim.linked hat) ?_)
    dsimp only
    rw [if_pos hp]
    exact Ends.modify ⟨⟨h.sim, h.logged.changeRoot (fun _ => rfl) fun _ => rfl, h.kept⟩, rfl⟩

/-- The ends of pointers of the table are noted. -/
theorem Tracks.noteEnds {entries : List (String × Option Int)} :
    ∀ {w : Walk}, Tracks s K f₀ pointees Γ τ es w →
      (∀ e ∈ entries, ∃ t, w.pointers.get? e.1 = some t) →
      Runs (noteEnds s entries) w fun _ w' => Tracks s K f₀ pointees Γ τ es w' := by
  induction entries with
  | nil =>
    intro w h _
    exact Ends.pure h
  | cons e entries ih =>
    intro w h hes
    obtain ⟨t, ht⟩ := hes e (List.mem_cons_self ..)
    refine Runs.bind (h.noteEnd ht e.2) ?_
    rintro _ w' ⟨h', hw'⟩
    refine ih h' fun e' he' => ?_
    rw [hw']
    exact hes e' (List.mem_cons_of_mem e he')

/-- What a function with a straight-line body does is noted. -/
theorem Tracks.perform (h : Tracks s K f₀ pointees Γ τ es w) (hf : IsName s.name) {f : Function}
    {body : Node} (hbody : f.body = some body) {sts : List Stmt} (hdef : Defines sts body)
    (hs : Scoped Γ sts) (hm : ∀ st ∈ sts, ∀ p ∈ st.moved?, K.moves p)
    (hd : ∀ d ∈ locals sts, d.Placed s.types pointees) :
    Runs (Analysis.perform calls s f) w fun _ w' =>
      Logged f₀ s.root (es ++ accessesFrom (Var.full s.name) τ sts) w' ∧ K.holds w'.memory ∧
        Linked none w'.memory := by
  have hwalk : Analysis.performBody calls s f =
      ((ordered body.children).map (Walk.walk calls s)).forM id := by
    unfold Analysis.performBody Walk.walkBody
    rw [hbody, ← inOrder_walkEach]
  unfold Analysis.perform
  rw [hwalk]
  refine Runs.bind (Tracks.walk_parsedEach hf hdef.body hs hm hd h) fun _ w' h' => ?_
  refine .bind_ok rfl (.bind_ok rfl ?_)
  refine Runs.mono (Tracks.noteEnds
    ⟨h'.sim, h'.logged.changeRoot (fun _ => rfl) fun _ => rfl, h'.kept⟩ ?_)
    fun _ w'' h'' => ⟨h''.logged, h''.kept, h''.sim.linked⟩
  intro e he
  exact Table.exists_lookup he

end Ends

/-! ## The start of a function -/

/-- A function with a straight-line body that has not been analysed.  No pointer points anywhere,
neither in the memory nor in the table, and none has an initialiser. -/
structure Ready (T : TypeTable) (a : Analysis) (id : Nat) (f : Function) (params : List Decl)
    (sts : List Stmt) : Prop where
  record : a.functions[id]? = some f
  reached : Reached T a.memory
  targets : ∀ v, (a.memory.varOf v).target = none
  inits : a.inits = {}
  pointers : ∀ k t, a.pointers.get? k = some t →
    t = none ∧ ∃ v, a.memory.named? k = some v ∧ v.isPointer = true
  name : IsName f.name.plain
  unused : ∀ x, a.memory.named? (ownedName f.name.plain x) = none
  vars : List.Forall₂ (Param f.name.plain a.memory) params f.vars.values
  fresh : FreshEach (globals a.memory) params
  single : ∀ d ∈ params, d.form = .pointer → T.isPointer (pointedType T d.type) = false
  body : ∃ body, f.body = some body ∧ Defines sts body
  declared : Scoped (startDecls a.memory params) sts

/-- A function with a straight-line body that has not been analysed.  The variables are declared
outside of it, and no pointer among them points anywhere. -/
structure Begins (T : TypeTable) (Γ : Decls) (a : Analysis) (id : Nat) (f : Function)
    (params : List Decl) (sts : List Stmt) : Prop where
  record : a.functions[id]? = some f
  sim : Sim f.name.plain [] Γ (fun _ => none) a.memory a.pointers
  inits : a.inits = {}
  name : IsName f.name.plain
  vars : List.Forall₂ (Param f.name.plain a.memory) params f.vars.values
  outer : ∀ x, Γ (.own x) = none
  fresh : FreshEach Γ params
  single : ∀ d ∈ params, d.form = .pointer → T.isPointer (pointedType T d.type) = false
  body : ∃ body, f.body = some body ∧ Defines sts body
  declared : Scoped (params.foldl Decls.declare Γ) sts

/-- The types take one block each, and no name is that of what a parameter points to. -/
structure Fits (T : TypeTable) (params : List Decl) (sts : List Stmt) : Prop where
  known : ∀ d ∈ params ++ locals sts, T.isBasic (T.decode d.type) = true
  pointed : ∀ d ∈ params, d.form = .pointer → T.isBasic (T.decode (pointedType T d.type)) = true
  apart : ∀ d ∈ params ++ locals sts, d.name ∉ pointees params

/-- A record has what the body writes, and what it reads before it writes it, besides what the
record had. -/
def NotesExactly (f : Function) (params : List Decl) (sts : List Stmt) (f' : Function) : Prop :=
  ∀ n, (n ∈ f'.writes ↔ n ∈ f.writes ∨
      ∃ x : Scalar, x.full f.name.plain = n ∧ .write x ∈ accesses params sts) ∧
    (n ∈ f'.reads ↔ n ∈ f.reads ∨
      ∃ x : Scalar, x.full f.name.plain = n ∧ ReadFirst x (accesses params sts))

/-- The analysis of the function comes to an end.  The writes of its record are the scalars that
the body writes, and the reads are the scalars that the body reads before it writes them, besides
what the record had. -/
def Precise (T : TypeTable) (a : Analysis) (id : Nat) (f : Function) (params : List Decl)
    (sts : List Stmt) : Prop :=
  ∃ a' f', analyse T id a = .ok ⟨⟩ a' ∧ a'.functions[id]? = some f' ∧ NotesExactly f params sts f'

section Start

variable {m : Memory} {n : String}

theorem named?_eq_some {v : Variable} :
    m.named? n = some v ↔ ∃ a id, m.At n a id ∧ m.varOf id = v := by
  unfold named?
  constructor
  · intro h
    obtain ⟨b, hb, rfl⟩ := Option.map_eq_some_iff.mp h
    obtain ⟨a, ha, hb⟩ := Option.bind_eq_some_iff.mp hb
    exact ⟨a, b.var, ⟨ha, by rw [hb, Option.map_some]⟩, rfl⟩
  · rintro ⟨a, id, hat, rfl⟩
    obtain ⟨b, hb, rfl⟩ := hat.exists_block
    rw [hat.address, Option.bind_some, hb, Option.map_some]

theorem named?_eq_none (hl : Linked none m) : m.named? n = none ↔ m.names.get? n = none := by
  constructor
  · intro h
    cases ha : m.names.get? n with
    | none => rfl
    | some a =>
      obtain ⟨id, hat⟩ := hl.exists_at ha
      rw [named?_eq_some.mpr ⟨a, id, hat, rfl⟩] at h
      cases h
  · intro h
    unfold named?
    rw [h]
    rfl

end Start

section Ready

variable {T : TypeTable} {a : Analysis} {id : Nat} {f : Function} {params : List Decl}
variable {sts : List Stmt}

/-- Before a function starts only the global variables are declared. -/
theorem Ready.sim (h : Ready T a id f params sts) :
    Sim f.name.plain [] (globals a.memory) (fun _ => none) a.memory a.pointers := by
  have hl := h.reached.linked
  have hunused : ∀ x b j, ¬ a.memory.At (ownedName f.name.plain x) b j := by
    intro x b j hat
    have hnone := h.unused x
    rw [named?_eq_some.mpr ⟨b, j, hat, rfl⟩] at hnone
    cases hnone
  constructor
  case linked => exact hl
  case bound =>
    intro x r hx
    cases x with
    | own x => cases hx
    | global x =>
      obtain ⟨v, hv, hr⟩ := Option.map_eq_some_iff.mp hx
      obtain ⟨b, j, hat, rfl⟩ := named?_eq_some.mp hv
      exact ⟨b, j, hat, .inl hr⟩
  case named =>
    intro x r hx
    cases hx
  case unowned =>
    intro x r hx
    cases hx
  case unknown =>
    intro x _ hx
    exact (named?_eq_none hl).mp (Option.map_eq_none_iff.mp hx)
  case apart =>
    rintro x r hx y rfl
    obtain ⟨v, hv, _⟩ := Option.map_eq_some_iff.mp hx
    obtain ⟨b, j, hat, _⟩ := named?_eq_some.mp hv
    exact hunused y b j hat
  case owned =>
    intro x b j hat _
    exact absurd hat (hunused x b j)
  case aims =>
    intro p _
    cases hk : a.pointers.get? (p.full f.name.plain) with
    | none => rfl
    | some t =>
      rw [(h.pointers _ t hk).1]
      rfl
  case remembered =>
    intro p b j _ _ _
    exact h.targets j
  case keys =>
    intro k t hk
    obtain ⟨v, hv, hp⟩ := (h.pointers k t hk).2
    obtain ⟨b, j, hat, rfl⟩ := named?_eq_some.mp hv
    exact ⟨b, j, hat, hp⟩

theorem exists_of_forall₂ {α β : Type} {R : α → β → Prop} {xs : List α} {ys : List β}
    (h : List.Forall₂ R xs ys) : ∀ y ∈ ys, ∃ x, R x y := by
  induction h with
  | nil => simp
  | cons hxy _ ih =>
    intro y hy
    cases hy with
    | head => exact ⟨_, hxy⟩
    | tail _ hy => exact ih y hy

theorem Ready.begins (h : Ready T a id f params sts) :
    Begins T (globals a.memory) a id f params sts :=
  { h with sim := h.sim, outer := fun _ => rfl }

theorem mem_pointees {x : String} :
    x ∈ pointees params ↔ ∃ d ∈ params, x ∈ d.pointee? := by
  simp [pointees]

end Ready

section Begins

variable {T : TypeTable} {Γ : Decls} {a : Analysis} {id : Nat} {f : Function} {params : List Decl}
variable {sts : List Stmt} {m : Memory}

/-- The parameters get their blocks, and the body can be walked. -/
theorem Begins.allocateFunctionParams (h : Begins T Γ a id f params sts) (hm : Marked a.memory m)
    (hfits : Fits T params sts) :
    Runs (allocateFunctionParams T {} f.vars.values) m
      fun noted m' => ∃ taken, (∀ x ∈ taken, x ∈ pointees params) ∧
        Sim f.name.plain taken (params.foldl Decls.declare Γ)
        ((startTargets Scalar.given params).map (Scalar.full f.name.plain)) m'
        (startPointers a.pointers noted) ∧ ∀ K : Spared f.name.plain, K.holds m → K.holds m' :=
    by
  have hvars : List.Forall₂ (Param f.name.plain m) params f.vars.values :=
    h.vars.imp fun _ _ hp => hp.marked hm
  have hentered : Entered (pointees params) [] Γ :=
    ⟨nofun, nofun, fun y hy => absurd (h.outer y) hy⟩
  have hpointees : ∀ d ∈ params, ∀ x ∈ d.pointee?,
      x ∈ pointees params ∧ d.PointsToScalar T := by
    intro d hd x hx
    refine ⟨mem_pointees.mpr ⟨d, hd, hx⟩, ?_⟩
    have hform : d.form = .pointer := by
      by_contra hc
      rw [pointee?_of_not_pointer hc] at hx
      cases hx
    exact ⟨hfits.pointed d hd hform, h.single d hd hform⟩
  rw [startTargets_map]
  exact Sim.allocateFunctionParams hvars h.fresh
    (fun d hd => ⟨hfits.apart d (List.mem_append_left _ hd),
      hfits.known d (List.mem_append_left _ hd)⟩) hpointees hentered (h.sim.marked hm)

/-- A step in a body ends as it does, with the memory and the functions put back. -/
theorem runs_inBody {α : Type} {x : WalkM α} {a : Analysis} {ps : Table String (Option Int)}
    {Q : α → Walk → Prop}
    (h : Runs x { memory := a.memory, functions := a.functions, pointers := ps } Q) :
    Runs (inBody ps x) a fun v a' =>
      ∃ w, Q v w ∧ a' = { a with memory := w.memory, functions := w.functions } := by
  obtain ⟨v, w, hrun, hq⟩ := h.exists_ok
  have hbody : inBody ps x a =
      .ok v { a with memory := w.memory, functions := w.functions } := by
    unfold inBody
    rw [hrun]
  exact .of_ok hbody ⟨w, hq, rfl⟩

/-- Forgetting the pointers to blocks and looking for arrays changes nothing but marks. -/
theorem Begins.scanBody (h : Begins T Γ a id f params sts) (hm : Marked a.memory m) :
    Analysis.scanBody id f { a with memory := m } = .ok ⟨⟩ { a with memory := m } := by
  obtain ⟨body, hbody, hdef⟩ := h.body
  have hname : ∀ v ∈ f.vars.values, ∃ x, (m.varOf v).name = ownedName f.name.plain x := by
    intro v hv
    obtain ⟨d, hp⟩ := exists_of_forall₂ h.vars v hv
    exact ⟨d.name, (hp.marked hm).name⟩
  unfold Analysis.scanBody
  rw [hbody, Option.isSome_some, if_pos rfl]
  refine (bind_of_ok rfl).trans ?_
  rw [h.record]
  dsimp only
  rw [Analysis.onMemory, zoom, scanFunction_flat hbody hdef.flat hname]

/-- The function is analysed once the pointers to blocks are forgotten. -/
theorem Begins.analyseFunction (h : Begins T Γ a id f params sts)
    (hm : Marked a.memory m) (hfits : Fits T params sts) (K : Spared f.name.plain)
    (hkept : K.holds a.memory) (hmoves : ∀ st ∈ sts, ∀ p ∈ st.moved?, K.moves p) :
    Runs (analyseFunction T id f) { a with memory := m } fun _ a' =>
      ∃ w, (Logged f id ((accesses params sts).map (Access.map (Scalar.full f.name.plain))) w ∧
        K.holds w.memory ∧ Linked none w.memory) ∧
        a' = { a with memory := w.memory, functions := w.functions } := by
  obtain ⟨body, hbody, hdef⟩ := h.body
  refine .bind_ok (h.scanBody hm) (Ends.bind (Ends.zoom ?_))
  refine Runs.mono (h.allocateFunctionParams hm hfits) ?_
  rintro noted m' ⟨taken, htaken, hsim, hkeeps⟩
  refine .bind_ok rfl (runs_inBody ?_)
  have hlogged : Logged f id []
      { memory := m', functions := a.functions,
        pointers := startPointers a.pointers noted } :=
    ⟨⟨f, h.record, by simp [ReadFirst], by simp⟩, fun _ =>
      ⟨fun hn => absurd hn List.not_mem_nil, fun hn => absurd hn List.not_mem_nil⟩⟩
  have htracks : Tracks { types := T, root := id, name := f.name.plain } K f taken
      (params.foldl Decls.declare Γ)
      ((startTargets Scalar.given params).map (Scalar.full f.name.plain)) []
      { memory := m', functions := a.functions,
        pointers := startPointers a.pointers noted } :=
    ⟨hsim, hlogged, hkeeps K (K.marked hkept hm)⟩
  rw [accesses, ← accessesFrom_map]
  exact htracks.perform h.name hbody hdef h.declared hmoves fun d hd =>
    ⟨fun hc => hfits.apart d (List.mem_append_right _ hd) (htaken _ hc),
      hfits.known d (List.mem_append_right _ hd)⟩

/-- A function with a straight-line body is analysed without a fault.  Its record gets what the body
writes and what it reads before it writes it, and what the function spares is left alone. -/
theorem Begins.analyse (h : Begins T Γ a id f params sts) (hfits : Fits T params sts)
    (K : Spared f.name.plain) (hkept : K.holds a.memory)
    (hmoves : ∀ st ∈ sts, ∀ p ∈ st.moved?, K.moves p) :
    Runs (analyse T id) a fun _ a' => (∃ f', a'.functions[id]? = some f' ∧
      NotesExactly f params sts f') ∧ K.holds a'.memory ∧ Linked none a'.memory ∧
      a'.inits = a.inits ∧ a'.pointers = a.pointers := by
  have hrecall : ∀ a', recallPointers T a.inits.entries a' = .ok ⟨⟩ a' := by
    intro a'
    rw [h.inits]
    rfl
  refine Ends.bind (Ends.zoom ?_)
  refine Runs.mono (clearRefs_marked h.sim.linked) fun _ m hm => ?_
  refine .bind_ok rfl (.bind_ok (hrecall _) (.bind_ok rfl ?_))
  rw [h.record]
  refine Runs.mono (h.analyseFunction hm hfits K hkept hmoves) ?_
  rintro _ _ ⟨w, ⟨hlogged, hkept', hlinked⟩, rfl⟩
  obtain ⟨f', hf', hreads, hwrites⟩ := hlogged.record
  have hstart := within_start h.outer fun d hd => hfits.apart d (List.mem_append_left _ hd)
  have hscalars : ∀ e ∈ accesses params sts, e.scalar.Apart (pointees params) :=
    hstart.accesses h.declared fun d hd => hfits.apart d (List.mem_append_right _ hd)
  refine ⟨⟨f', hf', fun n => ⟨?_, ?_⟩⟩, hkept', hlinked, rfl, rfl⟩
  · rw [hwrites, write_mem_map]
  · rw [hreads, readFirst_map (Scalar.full_inj f.name.plain) hscalars]

end Begins

/-- Nothing is spared. -/
def Spared.nothing (f : String) : Spared f where
  holds _ := True
  moves _ := True
  own _ := trivial
  marked _ _ := trivial
  adds _ _ _ _ := trivial
  moved _ _ _ _ := trivial

/-- A function with a straight-line body is analysed without a fault, and its record gets what
the body writes and what it reads before it writes it. -/
theorem analyse_precise {T : TypeTable} {a : Analysis} {id : Nat} {f : Function}
    {params : List Decl} {sts : List Stmt} (h : Ready T a id f params sts)
    (hknown : ∀ d ∈ params ++ locals sts, T.isBasic (T.decode d.type) = true)
    (hpointed : ∀ d ∈ params, d.form = .pointer →
      T.isBasic (T.decode (pointedType T d.type)) = true)
    (hapart : ∀ d ∈ params ++ locals sts, d.name ∉ pointees params) :
    Precise T a id f params sts := by
  obtain ⟨_, a', hok, ⟨f', hf', hnoted⟩, _⟩ := (h.begins.analyse ⟨hknown, hpointed, hapart⟩
    (.nothing _) trivial fun _ _ _ _ => trivial).exists_ok
  exact ⟨a', f', hok, hf', hnoted⟩

/-! ## Functions that are ready -/

/-- A variable of the declaration. -/
def Decl.toVariable (d : Decl) (name : String) (domain : Domain) : Variable :=
  let kind := match d.form with
    | .scalar => .builtin
    | .pointer => .pointer
    | .other => .record
  { name, type := d.type, kind, domain, isPointer := d.form = .pointer }

/-- The memory with variables declared that have no blocks yet. -/
def declared (T : TypeTable) (m : Memory) (vs : List Variable) : Memory :=
  vs.foldl (fun m v => (Call.declare v).after T m) m

/-- The memory with the global variables laid out. -/
def globalMemory (T : TypeTable) (globals : List Decl) : Memory :=
  (Call.allocateGlobals (List.range globals.length)).after T
    (declared T {} (globals.map fun d => d.toVariable d.name .global))

/-- A function with the parameters, whose variables are the ones from a place on. -/
def functionOf (name : String) (first : Nat) (params : List Decl) (sts : List Stmt) : Function where
  name := .text name
  source := ""
  params := params.map fun d => .text d.name
  vars := ⟨params.zipIdx.map fun (d, i) => (ownedName name d.name, first + i)⟩
  body := some (definition sts)

/-- The analysis of a program with the global variables and one function, before the function. -/
def opening (T : TypeTable) (globals : List Decl) (f : String) (params : List Decl)
    (sts : List Stmt) : Analysis where
  memory := declared T (globalMemory T globals)
    (params.map fun d => d.toVariable (ownedName f d.name) .param)
  functions := #[functionOf f globals.length params sts]
  pointers := ⟨(globals.filter fun d => d.form = .pointer).map fun d => (d.name, none)⟩

theorem reached_declared {m : Memory} (h : Reached T m)
    {vs : List Variable} (hv : ∀ v ∈ vs, v.parts = {}) : Reached T (declared T m vs) := by
  induction vs generalizing m with
  | nil => exact h
  | cons v vs ih =>
    have hfirst := h.after (.declare v) (hv v (List.mem_cons_self ..)) rfl
    exact ih hfirst fun v' hv' => hv v' (List.mem_cons_of_mem v hv')

theorem reached_globalMemory {globals : List Decl}
    (hfits : ∀ id ∈ List.range globals.length,
      id < (declared T {} (globals.map fun d => d.toVariable d.name .global)).vars.size)
    (hend : (Call.allocateGlobals (List.range globals.length)).comesToEnd T
      (declared T {} (globals.map fun d => d.toVariable d.name .global)) = true) :
    Reached T (globalMemory T globals) := by
  refine (reached_declared .empty ?_).after _ hfits hend
  intro v hv
  obtain ⟨d, _, rfl⟩ := List.mem_map.mp hv
  rfl

section Opening

variable {T : TypeTable} {globals params : List Decl} {f : String} {sts : List Stmt} {m : Memory}

theorem target_varOf (h : ∀ v ∈ m.vars.toList, v.target = none) (id : VarId) :
    (m.varOf id).target = none := by
  unfold varOf
  cases hv : m.vars[id]? with
  | none => rfl
  | some v => exact h v (Array.mem_def.mp (Array.mem_of_getElem? hv))

theorem named?_ownedName (h : ∀ e ∈ m.names.entries, IsName e.1) (f x : String) :
    m.named? (ownedName f x) = none := by
  have hnone : m.names.get? (ownedName f x) = none := by
    cases ha : m.names.get? (ownedName f x) with
    | none => rfl
    | some a => exact absurd rfl ((h _ (Table.mem_of_lookup ha)).ne_ownedName f x)
  unfold named?
  rw [hnone]
  rfl

/-- No function has been analysed: no pointer points anywhere, and only global variables are
named. -/
def Pristine (a : Analysis) : Prop :=
  (∀ v ∈ a.memory.vars.toList, v.target = none) ∧
    (∀ e ∈ a.pointers.entries,
      e.2 = none ∧ (a.memory.named? e.1).map Variable.isPointer = some true) ∧
    ∀ e ∈ a.memory.names.entries, IsName e.1

instance (a : Analysis) : Decidable (Pristine a) := inferInstanceAs (Decidable (_ ∧ _ ∧ _))

/-- A function is ready.  Everything that is asked can be computed. -/
theorem Pristine.ready {a : Analysis} (h : Pristine a) {id : Nat} {g : Function}
    (hrecord : a.functions[id]? = some g) (hreached : Reached T a.memory)
    (hinits : a.inits = {}) (hname : IsName g.name.plain)
    (hvars : List.Forall₂ (Param g.name.plain a.memory) params g.vars.values)
    (hfresh : FreshEach (StraightLine.globals a.memory) params)
    (hsingle : ∀ d ∈ params, d.form = .pointer → T.isPointer (pointedType T d.type) = false)
    (hbody : g.body = some (definition sts))
    (hdeclared : Scoped (startDecls a.memory params) sts) : Ready T a id g params sts where
  record := hrecord
  reached := hreached
  targets := target_varOf h.1
  inits := hinits
  pointers k t hk := by
    obtain ⟨ht, hv⟩ := h.2.1 _ (Table.mem_of_lookup hk)
    obtain ⟨v, hv, hp⟩ := Option.map_eq_some_iff.mp hv
    exact ⟨ht, v, hv, hp⟩
  name := hname
  unused x := named?_ownedName h.2.2 g.name.plain x
  vars := hvars
  fresh := hfresh
  single := hsingle
  body := ⟨definition sts, hbody, defines_definition sts⟩
  declared := hdeclared

/-- The function of an opening is ready. -/
theorem ready_opening (hreached : Reached T (globalMemory T globals))
    (htargets : ∀ v ∈ (opening T globals f params sts).memory.vars.toList, v.target = none)
    (hnames : ∀ e ∈ (opening T globals f params sts).memory.names.entries, IsName e.1)
    (hpointers : ∀ e ∈ (opening T globals f params sts).pointers.entries,
      ((opening T globals f params sts).memory.named? e.1).map Variable.isPointer = some true)
    (hname : IsName f)
    (hvars : List.Forall₂ (Param f (opening T globals f params sts).memory) params
      (functionOf f globals.length params sts).vars.values)
    (hfresh : FreshEach (StraightLine.globals (opening T globals f params sts).memory) params)
    (hsingle : ∀ d ∈ params, d.form = .pointer → T.isPointer (pointedType T d.type) = false)
    (hdeclared : Scoped (startDecls (opening T globals f params sts).memory params) sts) :
    Ready T (opening T globals f params sts) 0 (functionOf f globals.length params sts) params
      sts := by
  have hpristine : Pristine (opening T globals f params sts) := by
    refine ⟨htargets, fun e he => ⟨?_, hpointers e he⟩, hnames⟩
    obtain ⟨d, _, rfl⟩ := List.mem_map.mp he
    rfl
  refine hpristine.ready rfl (reached_declared hreached fun v hv => ?_) rfl hname hvars hfresh
    hsingle rfl hdeclared
  obtain ⟨d, _, rfl⟩ := List.mem_map.mp hv
  rfl

end Opening

/-- Two scalars and a pointer. -/
def shiftGlobals : List Decl :=
  [⟨"x", .scalar, "int"⟩, ⟨"y", .scalar, "int"⟩, ⟨"g", .pointer, "int *"⟩]

def shiftParams : List Decl := [⟨"p", .pointer, "int *"⟩, ⟨"n", .scalar, "int"⟩]

/-- A body in which every pointer changes its target, and `g` is used before it has one. -/
def shiftBody : List Stmt :=
  [.declare ⟨"q", .pointer, "int *"⟩,
   .declare ⟨"t", .scalar, "int"⟩,
   .assign (.deref (.global "g")) (.use (.var (.own "n"))),
   .assign (.var (.own "t")) (.use (.deref (.own "p"))),
   .point (.own "q") (.global "x"),
   .assign (.deref (.own "q")) (.binary "+" (.use (.var (.own "t")))
     (.binary "*" (.use (.var (.own "n"))) (.paren (.use (.var (.global "y")))))),
   .copy (.global "g") (.own "q"),
   .update (.deref (.global "g")) "+=" (.use (.deref (.own "p"))),
   .copy (.own "p") (.global "g"),
   .bump (.global "y") "++",
   .update (.deref (.own "p")) "-=" (.binary "==" (.use (.var (.own "t"))) (.literal "0"))]

theorem analyse_precise_shift :
    Ready {} (opening {} shiftGlobals "f" shiftParams shiftBody) 0
        (functionOf "f" 3 shiftParams shiftBody) shiftParams shiftBody ∧
      (accesses shiftParams shiftBody).map (Access.map (Scalar.full "f")) =
        [.read "<f>n", .read "<f>p__pointee", .write "<f>t", .read "<f>t", .read "<f>n", .read "y",
         .write "x", .read "<f>p__pointee", .read "x", .write "x", .read "y", .write "y",
         .read "<f>t", .read "x", .write "x"] ∧
      Precise {} (opening {} shiftGlobals "f" shiftParams shiftBody) 0
        (functionOf "f" 3 shiftParams shiftBody) shiftParams shiftBody := by
  have hready : Ready {} (opening {} shiftGlobals "f" shiftParams shiftBody) 0
      (functionOf "f" 3 shiftParams shiftBody) shiftParams shiftBody :=
    ready_opening (reached_globalMemory (by decide +kernel) (by decide +kernel))
      (by decide +kernel) (by decide +kernel) (by decide +kernel) (by decide +kernel)
      (by decide +kernel) (by decide +kernel) (by decide +kernel) (by decide +kernel)
  exact ⟨hready, by decide +kernel,
    analyse_precise hready (by decide +kernel) (by decide +kernel) (by decide +kernel)⟩

/-! ## Functions with declarations that are not allowed -/

/-- The reads that the analysis of a function records, if it comes to an end. -/
def recordedReads (T : TypeTable) (a : Analysis) (id : Nat) : Option NameSet :=
  match analyse T id a with
  | .ok _ a' => (a'.functions[id]?).map Function.reads
  | .error _ _ => none

theorem Precise.recordedReads {a : Analysis} {id : Nat} {f : Function} {params : List Decl}
    (h : Precise T a id f params sts) :
    ∃ reads, recordedReads T a id = some reads ∧ ∀ n, n ∈ reads ↔ n ∈ f.reads ∨
      ∃ x : Scalar, x.full f.name.plain = n ∧ ReadFirst x (accesses params sts) := by
  obtain ⟨a', f', hrun, hf', hnames⟩ := h
  refine ⟨f'.reads, ?_, fun n => (hnames n).2⟩
  unfold StraightLine.recordedReads
  rw [hrun]
  exact congrArg (Option.map Function.reads) hf'

/-- A scalar. -/
def namesakeGlobals : List Decl := [⟨"y", .scalar, "int"⟩]

/-- A pointer, and a scalar that is called like the block which the pointer is given. -/
def namesakeParams : List Decl := [⟨"p", .pointer, "int *"⟩, ⟨"p__pointee", .scalar, "int"⟩]

/-- A write through the pointer, and then a read of the scalar. -/
def namesakeBody : List Stmt :=
  [.assign (.deref (.own "p")) (.literal "1"),
   .assign (.var (.global "y")) (.use (.var (.own "p__pointee")))]

/-- A pointer of a type that the table does not know. -/
def restrictParams : List Decl := [⟨"p", .pointer, "int *restrict"⟩]

/-- A write through the pointer. -/
def restrictBody : List Stmt := [.assign (.deref (.own "p")) (.literal "1")]

/-- A parameter called like the block of a pointer is taken for that block, and a type that is not
known ends in a fault. -/
theorem not_precise_namesake_restrict :
    (Ready {} (opening {} namesakeGlobals "f" namesakeParams namesakeBody) 0
        (functionOf "f" 1 namesakeParams namesakeBody) namesakeParams namesakeBody ∧
      ¬ Precise {} (opening {} namesakeGlobals "f" namesakeParams namesakeBody) 0
        (functionOf "f" 1 namesakeParams namesakeBody) namesakeParams namesakeBody) ∧
    (Ready {} (opening {} namesakeGlobals "f" restrictParams restrictBody) 0
        (functionOf "f" 1 restrictParams restrictBody) restrictParams restrictBody ∧
      ¬ Precise {} (opening {} namesakeGlobals "f" restrictParams restrictBody) 0
        (functionOf "f" 1 restrictParams restrictBody) restrictParams restrictBody) := by
  have hreached : Memory.Reached {} (globalMemory {} namesakeGlobals) :=
    reached_globalMemory (by decide +kernel) (by decide +kernel)
  refine ⟨⟨?_, ?_⟩, ?_, ?_⟩
  · exact ready_opening hreached (by decide +kernel) (by decide +kernel) (by decide +kernel)
      (by decide +kernel) (by decide +kernel) (by decide +kernel) (by decide +kernel)
      (by decide +kernel)
  · intro h
    obtain ⟨reads, hreads, hnames⟩ := h.recordedReads
    have hempty : recordedReads {}
        (opening {} namesakeGlobals "f" namesakeParams namesakeBody) 0 = some {} := by
      decide +kernel
    rw [hempty] at hreads
    cases hreads
    have hfirst : ReadFirst (.var (.own "p__pointee")) (accesses namesakeParams namesakeBody) := by
      decide +kernel
    exact absurd ((hnames _).mpr (.inr ⟨_, rfl, hfirst⟩)) List.not_mem_nil
  · exact ready_opening hreached (by decide +kernel) (by decide +kernel) (by decide +kernel)
      (by decide +kernel) (by decide +kernel) (by decide +kernel) (by decide +kernel)
      (by decide +kernel)
  · intro h
    obtain ⟨reads, hreads, _⟩ := h.recordedReads
    have hfault : recordedReads {}
        (opening {} namesakeGlobals "f" restrictParams restrictBody) 0 = none := by
      decide +kernel
    rw [hfault] at hreads
    cases hreads

end Footprint.StraightLine
