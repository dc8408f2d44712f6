import Footprint.Proofs.Memory.Owned
import Footprint.Proofs.StraightLine.Steps

/-!
# Walking statements

The step lemmas of the simulation.  An assignment of a pointer changes its
target in the table and in its variable.  A declaration adds a block for its
variable.  All other statements are made of expressions and left sides.

The walk takes an update before its right side, against the order in which the
accesses happen.  Both orders have the same first reads and the same writes.
-/

namespace Footprint.StraightLine

open Walk Node

open Memory (Linked Marked Adds)

/-! ## Assignments of pointers -/

section Retarget

variable {f : String} {pointees : List String} {Γ : Decls} {τ : Targets String} {m : Memory}
variable {ps : Table String (Option Int)}

theorem varOf_setTarget (m : Memory) (id j : VarId) (target : Option Int) :
    ((m.setVar id fun v => { v with target }).varOf j).form = (m.varOf j).form ∧
      ((m.setVar id fun v => { v with target }).varOf j).isPointer = (m.varOf j).isPointer := by
  rw [Memory.varOf_setVar]
  split
  · exact ⟨rfl, rfl⟩
  · exact ⟨rfl, rfl⟩

variable {target : Option Int} {t : Option String} {p : Var} {a : Nat}

theorem Aims.owns (hl : Linked none m) :
    ∀ {t : Option String}, Aims m target t → m.OwnsTarget target
  | none, h => by
    rw [show target = none from h]
    exact Memory.ownsTarget_none
  | some _, h => by
    obtain ⟨a, id, rfl, hat, _⟩ := h
    obtain ⟨b, hb, _⟩ := hat.exists_block
    exact (hl.owns hb).target

theorem Aims.setTarget {id : VarId} {target' : Option Int}
    (h : Aims m target' t) : Aims (m.setVar id fun v => { v with target }) target' t := by
  cases t with
  | none => exact h
  | some t =>
    obtain ⟨a, j, ht, hat, hp⟩ := h
    exact ⟨a, j, ht, ⟨hat.address, hat.var⟩, (varOf_setTarget m id j target).2.trans hp⟩

/-- What a table and the targets agree on is changed at one pointer in both. -/
theorem Targets.agree_set {α : Type} {P : Option Int → Option α → Prop} {τ : Targets α} {q : Var}
    {t : Option α} (hinj : q.full f = p.full f → q = p) (hnew : P target t)
    (hold : P (ps.get? (q.full f)).join (τ q)) :
    P ((ps.set (p.full f) target).get? (q.full f)).join (τ.set p t q) := by
  unfold Targets.set
  by_cases he : q = p
  · subst he
    rw [Table.get?_set, if_pos rfl, if_pos rfl]
    exact hnew
  · rw [Table.get?_set, if_neg fun hc => he (hinj hc.symm), if_neg he]
    exact hold

/-- A variable without a target in the table has none of its own either, if that was so before. -/
theorem target_setTarget (hl : Linked none m) {n n' : String} {b : Nat} {id j : VarId}
    (hat : m.At n a id) (hb : m.At n' b j) (hnone : ((ps.set n target).get? n').join = none)
    (hold : (ps.get? n').join = none → (m.varOf j).target = none) :
    ((m.setVar id fun v => { v with target }).varOf j).target = none := by
  rw [Table.get?_set] at hnone
  rw [Memory.varOf_setVar]
  split at hnone
  · next he =>
    subst he
    obtain ⟨rfl, rfl⟩ := hb.unique hat
    rw [if_pos ⟨rfl, hat.lt_size hl⟩]
    exact hnone
  · next hne =>
    have hid : id ≠ j := by
      rintro rfl
      exact hne ((hat.name hl).symm.trans (hb.name hl))
    rw [if_neg fun hc => hid hc.1]
    exact hold hnone

/-- A pointer is given a new target, in the table and in its variable. -/
theorem Sim.retarget (h : Sim f pointees Γ τ m ps) (hp : Γ p = some .pointer) {id : VarId}
    (hat : m.At (p.full f) a id) (ht : Aims m target t) :
    Sim f pointees Γ (τ.set p t) (m.setVar id fun v => { v with target })
      (ps.set (p.full f) target) where
  linked := h.linked.setVar_same (fun _ => rfl) fun _ => rfl
  bound x r hx := by
    obtain ⟨b, j, hb, hform⟩ := h.bound x r hx
    exact ⟨b, j, ⟨hb.address, hb.var⟩, hform.imp_left (varOf_setTarget m id j target).1.trans⟩
  named := h.named
  unowned := h.unowned
  unknown := h.unknown
  apart := h.apart
  owned x b j hb hΓ := by
    obtain ⟨hmem, hvar⟩ := h.owned x b j ⟨hb.address, hb.var⟩ hΓ
    exact ⟨hmem, (varOf_setTarget m id j target).2.trans hvar⟩
  aims q hq := Targets.agree_set (h.full_inj hq hp) ht.setTarget (h.aims q hq).setTarget
  remembered q b j hq hb hnone := by
    have hb : m.At (q.full f) b j := ⟨hb.address, hb.var⟩
    exact target_setTarget h.linked hat hb hnone (h.remembered q b j hq hb)
  keys k t' hk := by
    rw [Table.get?_set] at hk
    split at hk
    · next he =>
      subst he
      obtain ⟨b, j, hb, hform⟩ := h.bound p .pointer hp
      exact ⟨b, j, ⟨hb.address, hb.var⟩,
        (varOf_setTarget m id j target).2.trans
          (form_pointer.mp (hform.resolve_right (by decide)))⟩
    · obtain ⟨b, j, hb, hvar⟩ := h.keys k t' hk
      exact ⟨b, j, ⟨hb.address, hb.var⟩, (varOf_setTarget m id j target).2.trans hvar⟩

/-- A pointer is given a target in the table only. -/
theorem Sim.enter (h : Sim f pointees Γ τ m ps) (hp : Γ p = some .pointer) {id : VarId}
    (hat : m.At (p.full f) a id) (ht : Aims m target t) (hvar : (m.varOf id).target = none) :
    Sim f pointees Γ (τ.set p t) m (ps.set (p.full f) target) := by
  refine { h with aims := ?_, remembered := ?_, keys := ?_ }
  · exact fun q hq => Targets.agree_set (h.full_inj hq hp) ht (h.aims q hq)
  · intro q b j hq hb hnone
    by_cases he : q = p
    · subst he
      obtain ⟨rfl, rfl⟩ := hb.unique hat
      exact hvar
    · have hne : p.full f ≠ q.full f := fun hc => he (h.full_inj hq hp hc.symm)
      rw [Table.get?_set, if_neg hne] at hnone
      exact h.remembered q b j hq hb hnone
  · intro k t' hk
    rw [Table.get?_set] at hk
    split at hk
    · next he =>
      subst he
      obtain ⟨b, j, hb, hform⟩ := h.bound p .pointer hp
      exact ⟨b, j, hb, form_pointer.mp (hform.resolve_right (by decide))⟩
    · exact h.keys k t' hk

end Retarget

/-! ## Declarations -/

section Declare

variable {f : String} {pointees : List String} {Γ : Decls} {τ : Targets String} {m m' : Memory}
variable {ps : Table String (Option Int)} {d : Decl} {id : VarId}

theorem Sim.absent (h : Sim f pointees Γ τ m ps) {x : String} (hx : Γ (.own x) = none)
    (hnot : x ∉ pointees) : m.names.get? (ownedName f x) = none := by
  cases ha : m.names.get? (ownedName f x) with
  | none => rfl
  | some a =>
    obtain ⟨id, hat⟩ := h.linked.exists_at ha
    exact absurd (h.owned x a id hat hx).1 hnot

theorem Sim.no_key (h : Sim f pointees Γ τ m ps) {n : String} (hn : m.names.get? n = none) :
    ps.get? n = none := by
  cases hk : ps.get? n with
  | none => rfl
  | some t =>
    obtain ⟨a, j, hat, _⟩ := h.keys n t hk
    rw [hat.address] at hn
    cases hn

/-- A parameter or a local is declared and has got its block. -/
theorem Sim.declare (h : Sim f pointees Γ τ m ps) (hd : d.Fresh Γ) (hnot : d.name ∉ pointees)
    (hadds : Adds m (ownedName f d.name) id m') (hnew : ∀ n a j, m.At n a j → j ≠ id)
    (hform : (m'.varOf id).form = d.form) (htarget : (m'.varOf id).target = none) :
    Sim f pointees (Γ.declare d) (τ.set (.own d.name) none) m' ps := by
  have habsent := h.absent hd.2.1 hnot
  have hold : ∀ {n a j}, m.At n a j → m'.At n a j ∧ m'.varOf j = m.varOf j :=
    hadds.at_old h.linked habsent hnew
  have hname : ∀ {x}, IsName x → m'.names.get? x = m.names.get? x := by
    intro x hx
    rw [hadds.names, Table.get?_set, if_neg (hx.ne_ownedName f d.name).symm]
  constructor
  case linked => exact hadds.linked
  case bound =>
    intro x r hx
    unfold Decls.declare at hx
    split at hx
    · next he =>
      subst he
      cases hx
      exact ⟨m.next, id, hadds.at_new, .inl hform⟩
    · obtain ⟨a, j, hat, hr⟩ := h.bound x r hx
      exact ⟨a, j, (hold hat).1, (hold hat).2.symm ▸ hr⟩
  case named =>
    intro x r hx
    unfold Decls.declare at hx
    split at hx
    · next he =>
      cases he
      exact hd.1
    · exact h.named x r hx
  case unowned =>
    intro x r hx
    unfold Decls.declare at hx
    split at hx
    · next he =>
      cases he
      exact (hname hd.1).trans (h.unknown d.name hd.1 hd.2.2)
    · exact (hname (h.named x r hx)).trans (h.unowned x r hx)
  case unknown =>
    intro x hx hΓ
    exact (hname hx).trans (h.unknown x hx hΓ)
  case apart => exact h.apart
  case owned =>
    intro x a j hat hΓ
    unfold Decls.declare at hΓ
    split at hΓ
    · cases hΓ
    · next he =>
      have hx : ownedName f x ≠ ownedName f d.name := fun hc =>
        he (congrArg Var.own (ownedName_inj.mp hc))
      have hat := (hadds.at_iff h.linked hx).mp hat
      obtain ⟨hmem, hp⟩ := h.owned x a j hat hΓ
      exact ⟨hmem, (hold hat).2.symm ▸ hp⟩
  case aims =>
    intro p hp
    unfold Targets.set
    unfold Decls.declare at hp
    split at hp
    · next he =>
      subst he
      rw [if_pos rfl, show ps.get? ((Var.own d.name).full f) = none from h.no_key habsent]
      rfl
    · next he =>
      rw [if_neg he]
      exact (h.aims p hp).keep hold
  case remembered =>
    intro p a j hp hat hnone
    unfold Decls.declare at hp
    split at hp
    · next he =>
      subst he
      obtain ⟨rfl, rfl⟩ := hat.unique hadds.at_new
      exact htarget
    · next he =>
      obtain ⟨b, k, hb, _⟩ := h.bound p .pointer hp
      obtain ⟨rfl, rfl⟩ := hat.unique (hold hb).1
      rw [(hold hb).2]
      exact h.remembered p a j hp hb hnone
  case keys =>
    intro k t hk
    obtain ⟨a, j, hat, hp⟩ := h.keys k t hk
    exact ⟨a, j, (hold hat).1, (hold hat).2.symm ▸ hp⟩

end Declare

section Tracks

variable {s : Scope} {K : Spared s.name} {f₀ : Function} {pointees : List String} {Γ : Decls}
variable {τ : Targets String} {es : List (Access String)} {w : Walk} {calls : CallIndex}
variable {target : Option Int} {key : String} {a : Nat} {p : Var} {n : Node} {cs : List Node}
variable {sts rest : List Stmt}

theorem dropRef_owned (hl : Linked none w.memory) (key : String) (ht : w.memory.OwnsTarget target) :
    Runs (dropRef key target) w fun _ w' => ∃ m, w' = { w with memory := m } ∧
      Marked w.memory m := by
  cases target with
  | none => exact Ends.pure ⟨w.memory, rfl, .refl hl⟩
  | some a =>
    obtain ⟨n, rfl, b, hb⟩ := (ht a rfl).exists_nat
    exact Ends.zoom (Runs.mono (Memory.removeRef_marked hl hb key) fun _ m hm => ⟨m, rfl, hm⟩)

theorem noteRef_owned (hl : Linked none w.memory) (key : String) (ht : w.memory.OwnsTarget target) :
    Runs (noteRef key target) w fun _ w' => ∃ m, w' = { w with memory := m } ∧
      Marked w.memory m := by
  cases target with
  | none => exact Ends.pure ⟨w.memory, rfl, .refl hl⟩
  | some a =>
    obtain ⟨n, rfl, b, hb⟩ := (ht a rfl).exists_nat
    exact Ends.zoom (Runs.mono (Memory.addRef_marked hl hb key) fun _ m hm => ⟨m, rfl, hm⟩)

/-- A pointer is made to point to a block or nowhere, in the table and in its variable.  Only marks
change apart from that. -/
theorem repoint_at (hl : Linked none w.memory) (hkey : key ≠ "")
    {id : VarId} (hat : w.memory.At key a id) (hpointer : (w.memory.varOf id).isPointer = true)
    (hold : w.memory.OwnsTarget
      ((w.pointers.get? key).join <|> remembered (some (id, w.memory.varOf id))))
    (ht : w.memory.OwnsTarget target) :
    Runs (repoint s key target) w fun _ w' => ∃ m m', Marked w.memory m ∧
      Marked (m.setVar id fun v => { v with target }) m' ∧
      w' = { w with memory := m', pointers := w.pointers.set key target } := by
  refine .bind_ok (bind_of_ok rfl) (.bind_ok (variableOf_at hl hkey hat) ?_)
  refine Runs.bind (dropRef_owned hl key hold) ?_
  rintro _ _ ⟨m, rfl, hm⟩
  have hremember : ∀ w' : Walk, remember target (some (id, w.memory.varOf id)) w' =
      .ok ⟨⟩ { w' with memory := w'.memory.setVar id fun v => { v with target } } := by
    intro w'
    unfold remember
    dsimp only
    rw [if_pos hpointer]
    rfl
  have hlinked : Linked none (m.setVar id fun v => { v with target }) :=
    hm.linked.setVar_same (fun _ => rfl) fun _ => rfl
  have howns : (m.setVar id fun v => { v with target }).OwnsTarget target := by
    intro c hc
    obtain ⟨n, rfl, b, hb⟩ := (ht c hc).exists_nat
    obtain ⟨b', hb', _⟩ := hm.exists_block hb
    exact hlinked.owns hb'
  refine .bind_ok rfl (.bind_ok (hremember _) ?_)
  refine Runs.mono (noteRef_owned hlinked key howns) ?_
  rintro _ _ ⟨m', rfl, hm'⟩
  exact ⟨m, m', hm, hm', rfl⟩

/-- A declared pointer is made to point to a target. -/
theorem Tracks.repoint (h : Tracks s K f₀ pointees Γ τ es w) (hp : p.Is Γ .pointer)
    (hmoves : K.moves p)
    {t : Option String} (ht : Aims w.memory target t) :
    Runs (repoint s (p.full s.name) target) w fun _ w' =>
      Tracks s K f₀ pointees Γ (τ.set p t) es w' := by
  obtain ⟨a, id, hat, hform⟩ := h.sim.bound p .pointer hp.2
  have hold : ((w.pointers.get? (p.full s.name)).join <|>
      remembered (some (id, w.memory.varOf id))) =
        (w.pointers.get? (p.full s.name)).join := by
    cases hj : (w.pointers.get? (p.full s.name)).join with
    | none => rw [h.sim.remembered_none hp hat hj]; rfl
    | some a => rfl
  have hpointer := form_pointer.mp (hform.resolve_right (by decide))
  refine Runs.mono (repoint_at h.sim.linked (full_ne_empty hp.1) hat hpointer
    (by rw [hold]; exact (h.sim.aims p hp.2).owns h.sim.linked) (ht.owns h.sim.linked)) ?_
  rintro _ _ ⟨m, m', hm, hm', rfl⟩
  have hsim := (h.sim.marked hm).retarget hp.2 (hat.marked hm) (ht.marked hm)
  have hkept : K.holds (m.setVar id fun v => { v with target }) :=
    K.moved (K.marked h.kept hm) hm.linked hmoves (hat.marked hm)
  exact ⟨hsim.marked hm', h.logged.of_eq rfl rfl, K.marked hkept hm'⟩

/-- The address of a variable, as the value of a pointer. -/
theorem pointerTarget_address {x : Var} (hx : IsName x.name)
    (haddr : addressIn s x.name w = .ok (some a) w) (hn : AddressParsed x n) :
    pointerTarget s n w = .ok (some (Int.ofNat a)) w := by
  induction hn with
  | @address i c d hk ht hc =>
    have hop : operatorOf i = "&" := by
      refine operatorOf_name hx (by decide) fun t => ?_
      simp [ht]
    have hbare : pointerTarget s (.mk i [c] d) = bareTarget s (.mk i [c] d) := by
      unfold pointerTarget
      simp only [hk]
    have hname : ((some x.name).filter fun n => !n.isEmpty) = some x.name := by
      simp [hx.1]
    have hunary : ((mk i [c] d).kind = .unary &&
        operatorOf (mk i [c] d).info = "&") = true := by
      simp [kind, info, hk, hop]
    rw [hbare, bareTarget, if_pos hunary]
    show (accessName s c >>= addressIn? s) w = _
    rw [accessName_var hc]
    refine (bind_of_ok rfl).trans ?_
    unfold addressIn?
    rw [hname]
    exact bind_of_ok haddr
  | implicit hk _ ih =>
    rw [pointerTarget]
    simp only [hk]
    exact ih

/-- The variable that a place names. -/
def Place.base : Place → Var
  | .var x => x
  | .deref p => p

/-- The value of a pointer.  A star before its name makes no difference. -/
theorem pointerTarget_place {l : Place} (hl : IsName l.base.name) {t : Option Int}
    (hkey : pointerKey s l.base.name w = .ok (some key) w)
    (ht : targetOf s key w = .ok t w) (hn : (Expr.use l).Parsed n) :
    pointerTarget s n w = .ok t w := by
  generalize he : Expr.use l = e at hn
  induction hn with
  | @var x i d hk hs =>
    cases he
    have hbare : pointerTarget s (.mk i [] d) = bareTarget s (.mk i [] d) := by
      unfold pointerTarget
      simp only [hk]
    have hunary : ¬ ((mk i [] d).kind = .unary &&
        operatorOf (mk i [] d).info = "&") = true := by
      simp [kind, info, hk]
    rw [hbare, bareTarget, if_neg hunary, pointerName_var (.var hk hs)]
    refine (bind_of_ok rfl).trans ?_
    exact (bind_of_ok hkey).trans ht
  | @deref p i c d hk htok hc =>
    cases he
    have hop : operatorOf i = "*" := operatorOf_deref hl htok
    have hbare : pointerTarget s (.mk i [c] d) = bareTarget s (.mk i [c] d) := by
      unfold pointerTarget
      simp only [hk]
    have hunary : ¬ ((mk i [c] d).kind = .unary &&
        operatorOf (mk i [c] d).info = "&") = true := by
      simp [info, hop]
    have hname : pointerName s (.mk i [c] d) = pointerName s c := by
      rw [pointerName]
      simp [hk, hop]
    rw [hbare, bareTarget, if_neg hunary, hname, pointerName_var hc]
    refine (bind_of_ok rfl).trans ?_
    exact (bind_of_ok hkey).trans ht
  | implicit hk _ ih =>
    rw [pointerTarget]
    simp only [hk]
    exact ih he
  | literal => cases he
  | paren => cases he
  | binary => cases he

/-- The walk over an address notes nothing. -/
theorem walk_addressParsed {x : Var} (hx : IsName x.name) (hn : AddressParsed x n)
    (w : Walk) : Runs (walk calls s n) w fun _ w' => w' = w := by
  induction hn with
  | @address i c d hk ht hc =>
    have hop : operatorOf i = "&" := by
      refine operatorOf_name hx (by decide) fun t => ?_
      simp [ht]
    have hkind : c.kind ≠ .subscript := by
      cases hc with
      | var hk _ => simp [kind, info, hk]
      | implicit hk _ => simp [kind, info, hk]
    rw [walk_address hk hop hkind]
    exact Ends.pure rfl
  | implicit hk _ ih =>
    rw [walk_group (by rw [hk]; rfl)]
    exact Runs.bind ih fun _ _ h' => .pure h'

/-- The walk over a pointer notes nothing. -/
theorem walk_pointer (hl : Linked none w.memory) {q : Var} (hq : IsName q.name) {id : VarId}
    (hat : w.memory.At (q.full s.name) a id) (hpointer : (w.memory.varOf id).isPointer = true)
    (haddr : addressIn s q.name w = .ok (some a) w) (hn : (Expr.use (.var q)).Parsed n) :
    Runs (walk calls s n) w fun _ w' => w' = w := by
  generalize he : Expr.use (.var q) = e at hn
  induction hn with
  | @var x i d hk hs =>
    cases he
    have hmark : mark s .read a w = .ok ⟨⟩ w := by
      refine (bind_of_ok (variableAt_at hl hat)).trans ?_
      dsimp only
      rw [hpointer]
      rfl
    rw [walk_declRef hk]
    unfold readAccess
    rw [accessName_var (.var hk hs)]
    refine .bind_ok rfl (.bind_ok haddr (.bind_ok (variableAt_at hl hat) ?_))
    dsimp only
    split
    · exact Ends.pure rfl
    · rw [markNamed, if_neg (not_isEmpty hq.1)]
      exact .bind_ok haddr (.bind_ok hmark (.pure rfl))
  | implicit hk _ ih =>
    rw [walk_group (by rw [hk]; rfl)]
    exact Runs.bind (ih he) fun _ _ h' => .pure h'
  | deref => cases he
  | literal => cases he
  | paren => cases he
  | binary => cases he

/-! ## Nodes without a meaning -/

theorem runs_forM_same {α : Type} {g : α → WalkM Unit} {xs : List α}
    (h : ∀ x ∈ xs, Runs (g x) w fun _ w' => w' = w) :
    Runs (xs.forM g) w fun _ w' => w' = w := by
  induction xs with
  | nil => exact Ends.pure rfl
  | cons x xs ih =>
    refine Runs.bind (h x (List.mem_cons_self ..)) ?_
    rintro _ _ rfl
    exact ih fun y hy => h y (List.mem_cons_of_mem x hy)

/-- A node that only groups changes nothing if its children do not. -/
theorem walk_group_same {d : Option Node} (hk : groups i.kind = true)
    (h : ∀ c ∈ cs, Runs (walk calls s c) w fun _ w' => w' = w) :
    Runs (walk calls s (.mk i cs d)) w fun _ w' => w' = w := by
  rw [walk_group hk]
  refine runs_forM_same fun x hx => ?_
  obtain ⟨c, hc, rfl⟩ := List.mem_map.mp hx
  exact h c (mem_ordered.mp hc)

theorem walk_inert (hn : Inert n) (w : Walk) : Runs (walk calls s n) w fun _ w' => w' = w := by
  induction hn with
  | mk hk _ ih => exact walk_group_same hk ih

theorem firstPointer_none (h : ∀ c ∈ cs, pointerName s c = pure none) :
    firstPointer s cs = pure none := by
  induction cs with
  | nil => rw [firstPointer]
  | cons c cs ih =>
    rw [firstPointer, h c (List.mem_cons_self ..)]
    exact ih fun c' hc' => h c' (List.mem_cons_of_mem c hc')

theorem pointerName_inert (hn : Inert n) : pointerName s n = pure none := by
  induction hn with
  | @mk i cs d hk _ ih =>
    unfold pointerName
    cases hkind : i.kind with
    | varDecl | declRef | memberRef | subscript | call | unary | binary | compoundAssign =>
      simp [hkind, groups] at hk
    | cast | conditional => exact firstPointer_none ih
    | implicit | paren =>
      cases cs with
      | nil => rfl
      | cons c cs => exact ih c (List.mem_cons_self ..)
    | functionDecl | structDecl | unionDecl | typedefDecl | enumDecl | fieldDecl | paramDecl
    | typeRef | integer | other => rfl

theorem bareTarget_inert (hn : Inert n) : bareTarget s n = pure none := by
  have hname := pointerName_inert (s := s) hn
  cases hn with
  | @mk i cs d hk _ =>
    have hkinds : i.kind ≠ .unary ∧ i.kind ≠ .declRef := by
      constructor
      · intro hc
        rw [hc] at hk
        cases hk
      · intro hc
        rw [hc] at hk
        cases hk
    have hunary : ¬ ((mk i cs d).kind = .unary &&
        operatorOf (mk i cs d).info = "&") = true := by
      simp [kind, info, hkinds.1]
    have hdecl : ¬ (mk i cs d).kind = .declRef := hkinds.2
    unfold bareTarget
    rw [if_neg hunary, hname, if_neg hdecl]
    rfl

theorem pointerTarget_inert (hn : Inert n) : pointerTarget s n = pure none := by
  induction hn with
  | @mk i cs d hk hcs ih =>
    have hbare := bareTarget_inert (s := s) (Inert.mk (d := d) hk hcs)
    unfold pointerTarget
    cases hkind : i.kind with
    | cast | implicit | paren =>
      cases cs with
      | nil => rfl
      | cons c cs => exact ih c (List.mem_cons_self ..)
    | varDecl | declRef | memberRef | subscript | call | unary | binary | compoundAssign =>
      simp [hkind, groups] at hk
    | functionDecl | structDecl | unionDecl | typedefDecl | enumDecl | fieldDecl | paramDecl
    | typeRef | integer | other | conditional => exact hbare

/-! ## Locals -/

/-- The variable of a declared local. -/
def localVariable (f : String) (x : Decl) (t : NodeType) : Variable :=
  { name := ownedName f x.name, type := t.spelling, kind := kindOfShape t.canonical,
    domain := .inner, isPointer := t.canonical = .pointer }

theorem form_localVariable (f : String) (x : Decl) (t : NodeType) :
    (localVariable f x t).form = t.form := by
  unfold Variable.form NodeType.form localVariable
  cases t.canonical with
  | pointer => rfl
  | record => rfl
  | array => rfl
  | other => rfl

/-- A local gets its block. -/
theorem Tracks.declareLocal (h : Tracks s K f₀ pointees Γ τ es w) (hf : IsName s.name) {x : Decl}
    (hx : x.Fresh Γ) (hnot : x.name ∉ pointees) {i : NodeInfo} (hs : i.spelling = x.name)
    {t : NodeType} (hi : i.type = some t) (ht : t.form = x.form)
    (hbasic : s.types.isBasic (s.types.decode t.spelling) = true) :
    Runs (Walk.declareLocal s i) w fun _ w' =>
      Tracks s K f₀ pointees (Γ.declare x) (τ.set (.own x.name) none) es w' := by
  have haddr : Walk.addressOf s (ownedName s.name i.spelling) w = .ok none w := by
    rw [hs]
    exact addressOf_none (ownedName_ne_empty _ _) (ownedName_plain hf hx.1)
      (h.sim.absent hx.2.1 hnot)
  have htype : Walk.typeOf i = pure t := by
    unfold Walk.typeOf
    rw [hi]
  obtain ⟨m, hrun, hadds, hvar⟩ := Memory.declare_allocateRoot (T := s.types) h.sim.linked
    (v := localVariable s.name x t) rfl hbasic
  have hnew : ∀ n a j, w.memory.At n a j → j ≠ w.memory.vars.size :=
    fun n a j hat => Nat.ne_of_lt (hat.lt_size h.sim.linked)
  have hform : (m.varOf w.memory.vars.size).form = x.form := by
    rw [hvar, ← ht, ← form_localVariable s.name x t]
    rfl
  have hsim := h.sim.declare hx hnot hadds hnew hform (by rw [hvar]; rfl)
  unfold Walk.declareLocal
  rw [htype, hs]
  rw [hs] at haddr
  refine .bind_ok haddr (.bind_ok rfl (.bind_ok rfl (.bind_ok (Walk.onMemory_ok hrun) ?_)))
  exact Ends.pure ⟨hsim, h.logged.of_eq rfl rfl,
    K.adds h.kept h.sim.linked hadds fun hlt => absurd hlt (Nat.lt_irrefl _)⟩

theorem Targets.set_none (ht : τ p = none) : τ.set p none = τ := by
  funext q
  unfold Targets.set
  split
  · next he => rw [he, ht]
  · rfl

/-- A pointer without an initialiser points nowhere. -/
theorem Tracks.walkInit (hp : p.Is Γ .pointer) (hmoves : K.moves p) (ht : τ p = none) :
    ∀ {w : Walk}, Tracks s K f₀ pointees Γ τ es w → (∀ c ∈ cs, Inert c) →
      Runs (Walk.walkInit calls s (p.full s.name) cs) w
        fun _ w' => Tracks s K f₀ pointees Γ τ es w' := by
  induction cs with
  | nil =>
    intro w h _
    rw [Walk.walkInit]
    exact Ends.pure h
  | cons c cs ih =>
    intro w h hcs
    have hc := hcs c (List.mem_cons_self ..)
    cases c with
    | mk i ds d =>
      rw [Walk.walkInit]
      split
      · exact ih h fun c hc => hcs c (List.mem_cons_of_mem _ hc)
      · rw [pointerTarget_inert hc]
        refine .bind_ok rfl (Runs.bind (h.repoint hp hmoves (t := none) rfl) ?_)
        intro _ w' h'
        rw [Targets.set_none ht] at h'
        refine Runs.mono (walk_inert hc w') ?_
        rintro _ _ rfl
        exact h'

/-- The walk over a declaration without an initialiser. -/
theorem Tracks.walk_declare (h : Tracks s K f₀ pointees Γ τ es w) (hf : IsName s.name) {x : Decl}
    (hx : x.Fresh Γ) (hnot : x.name ∉ pointees)
    (hbasic : s.types.isBasic (s.types.decode x.type) = true) (hn : (Stmt.declare x).Parsed n) :
    Runs (walk calls s n) w
      fun _ w' => Tracks s K f₀ pointees (Γ.declare x) (τ.set (.own x.name) none) es w' := by
  cases hn with
  | @declare _ i t cs d hk hs hi htype hform hshape hcs =>
    have hempty : ¬ i.spelling.isEmpty = true := by
      rw [hs]
      simpa using hx.1.1
    have htypeOf : typeOf i = pure t := by
      unfold typeOf
      rw [hi]
    have hlocal := h.declareLocal hf hx hnot hs hi hform (by rw [htype]; exact hbasic)
    unfold walk
    simp only [hk]
    rw [if_neg hempty, htypeOf]
    refine Runs.bind hlocal fun _ w' h' => .bind_ok rfl ?_
    split
    · next hpointer =>
      have hp : (Var.own x.name).Is (Γ.declare x) .pointer := by
        refine ⟨hx.1, ?_⟩
        rw [Decls.declare, if_pos rfl, ← hform, NodeType.form, hshape hpointer]
      have ht : τ.set (.own x.name) none (.own x.name) = none := if_pos rfl
      obtain ⟨a, id, hat, _⟩ := h'.sim.bound _ _ hp.2
      have hnone := h'.sim.aims _ hp.2
      rw [ht] at hnone
      have hsim := h'.sim.enter hp.2 hat (show Aims w'.memory none none from rfl)
        (h'.sim.remembered _ a id hp.2 hat hnone)
      rw [Targets.set_none ht] at hsim
      rw [hs]
      exact .bind_ok rfl (Tracks.walkInit hp (K.own x.name) ht
        ⟨hsim, h'.logged.of_eq rfl rfl, h'.kept⟩ hcs)
    · have hsteps : ∀ e ∈ walkEach calls s cs, Runs e.2 w' fun _ u => u = w' := by
        intro e he
        rw [walkEach_eq] at he
        obtain ⟨c, hc, rfl⟩ := List.mem_map.mp he
        exact walk_inert (hcs c hc) w'
      refine Runs.mono (runs_forM_same hsteps) ?_
      rintro _ _ rfl
      exact h'

/-! ## Statements -/

theorem used_write (f : String) (τ : Targets String) (l : Place) :
    l.used f τ [.write] = l.written (Var.full f) τ := by
  unfold Place.used Place.written
  cases l.scalar (Var.full f) τ with
  | none => rfl
  | some n => rfl

/-- An update may stand before the reads of its right side. -/
theorem readFirst_update (f : String) (τ : Targets String) (l : Place) (ns : List String)
    (n : String) :
    ReadFirst n (ns.map .read ++ l.updated (Var.full f) τ) ↔
    ReadFirst n (l.updated (Var.full f) τ ++ ns.map .read) := by
  unfold Place.updated
  cases l.scalar (Var.full f) τ with
  | none => simp
  | some t =>
    by_cases he : t = n
    · simp [readFirst_append, ReadFirst, he]
    · simp [readFirst_append, readFirst_map_read, ReadFirst, he]

/-- The accesses of an update in the order in which they happen. -/
theorem Tracks.update_order {l : Place} {ns : List String}
    (h : Tracks s K f₀ pointees Γ τ (es ++ l.updated (Var.full s.name) τ ++ ns.map .read) w) :
    Tracks s K f₀ pointees Γ τ (es ++ (ns.map .read ++ l.updated (Var.full s.name) τ)) w := by
  refine ⟨h.sim, h.logged.congr ?_ ?_, h.kept⟩
  · intro n
    rw [List.append_assoc, readFirst_append, readFirst_append n es, readFirst_update]
  · intro n
    simp only [List.mem_append]
    tauto

/-- What a declaration needs: a type that takes one block, and a name that is not taken by what
a parameter points to. -/
def Decl.Placed (T : TypeTable) (pointees : List String) (d : Decl) : Prop :=
  d.name ∉ pointees ∧ T.isBasic (T.decode d.type) = true

/-- The pointer that the statement moves. -/
def Stmt.moved? : Stmt → Option Var
  | .point p _ | .copy p _ => some p
  | _ => none

/-- The walk over a statement notes what the statement accesses, and leaves the pointers where
the statement does. -/
theorem Tracks.walk_stmt (h : Tracks s K f₀ pointees Γ τ es w) (hf : IsName s.name) {st : Stmt}
    (hst : st.Scoped Γ) (hmoves : ∀ p ∈ st.moved?, K.moves p)
    (hd : ∀ d ∈ locals [st], d.Placed s.types pointees) (hn : st.Parsed n) :
    Runs (walk calls s n) w
      fun _ w' => Tracks s K f₀ pointees (st.decls Γ) (st.targets (Var.full s.name) τ)
        (es ++ st.accesses (Var.full s.name) τ) w' := by
  cases hn with
  | @assign l e i a b d hk ht ha hb =>
    obtain ⟨hl, he, heq⟩ := hst
    rw [walk_assign hk (operatorOf_assignPlace hl he heq ht)]
    refine .bind_ok (h.sim.assignedPointer_scalar hf hl ha) ?_
    refine Runs.bind (walk_expr hf hb he h) fun _ w' h' => ?_
    refine Runs.mono (h'.assign_place hf hl ha [.write]) fun _ w'' h'' => ?_
    rw [used_write, List.append_assoc] at h''
    exact h''
  | @update l op e i a b d hk ht ha hb =>
    obtain ⟨hl, hop, he⟩ := hst
    rw [walk_update hk (operatorOf_update (by simp [ht]) hop)]
    refine Runs.bind (h.assign_place hf hl ha [.read, .write]) fun _ w' h' => ?_
    exact Runs.mono (walk_expr hf hb he h') fun _ w'' h'' => h''.update_order
  | @bump x op i c d hk ht hc =>
    obtain ⟨hx, hop⟩ := hst
    have hmem : ∀ op ∈ ["++", "--"], op ∈ operators := by decide
    have hoperator : operatorOf i = op := by
      refine operatorOf_name hx.1 (hmem op hop) fun t => ?_
      cases ht with
      | inl ht => simp [ht, or_comm]
      | inr ht => simp [ht]
    rw [walk_bump hk (hoperator ▸ hop)]
    exact h.assign_place hf (l := .var x) hx hc [.read, .write]
  | @point p x i a b d hk ht ha hb =>
    obtain ⟨hp, hx⟩ := hst
    have hop : operatorOf i = "=" :=
      operatorOf_assignPointer hp.1 hx.1 (by simp [ht]) (by simp [ht])
    obtain ⟨k, id, hat, hform, haddr⟩ := h.sim.addressIn hx (by decide)
    have haims : Aims w.memory (some (Int.ofNat k)) (some (x.full s.name)) :=
      ⟨k, id, rfl, hat, not_pointer_of_form hform⟩
    rw [walk_assign hk hop]
    refine .bind_ok (assignedPointer_var (h.sim.pointerKey_pointer hf hp) ha) ?_
    refine .bind_ok (pointerTarget_address hx.1 haddr hb) ?_
    refine Runs.bind (h.repoint hp (hmoves p rfl) haims) fun _ w' h' => ?_
    refine Runs.mono (walk_addressParsed hx.1 hb w') ?_
    rintro _ _ rfl
    rw [Stmt.accesses, List.append_nil]
    exact h'
  | @copy p q i a b d hk ht ha hb =>
    obtain ⟨hp, hq⟩ := hst
    have hop : operatorOf i = "=" :=
      operatorOf_assignPointer hp.1 hq.1 (by simp [ht]) (by simp [ht])
    rw [walk_assign hk hop]
    refine .bind_ok (assignedPointer_var (h.sim.pointerKey_pointer hf hp) ha) ?_
    refine .bind_ok (pointerTarget_place (l := .var q) hq.1 (h.sim.pointerKey_pointer hf hq)
      (h.sim.targetOf hq) hb) ?_
    refine Runs.bind (h.repoint hp (hmoves p rfl) (h.sim.aims q hq.2)) fun _ w' h' => ?_
    obtain ⟨k, id, hat, hform, haddr⟩ := h'.sim.addressIn hq (by decide)
    refine Runs.mono (walk_pointer h'.sim.linked hq.1 hat (form_pointer.mp hform) haddr hb) ?_
    rintro _ _ rfl
    rw [Stmt.accesses, List.append_nil]
    exact h'
  | declare hk hs hi htype hform hshape hcs =>
    obtain ⟨hnot, hbasic⟩ := hd _ (List.mem_cons_self ..)
    refine Runs.mono (h.walk_declare hf hst hnot hbasic
      (.declare hk hs hi htype hform hshape hcs)) fun _ w' h' => ?_
    rw [Stmt.accesses, List.append_nil]
    exact h'

/-! ## Bodies -/

theorem scoped_append : ∀ {Γ : Decls},
    Scoped Γ (sts ++ rest) ↔ Scoped Γ sts ∧ Scoped (sts.foldl Stmt.decls Γ) rest := by
  induction sts with
  | nil => simp [Scoped]
  | cons st sts ih =>
    intro Γ
    simp [Scoped, ih, and_assoc]

theorem accessesFrom_append {α : Type} (name : Var → α) :
    ∀ {τ : Targets α}, accessesFrom name τ (sts ++ rest) =
      accessesFrom name τ sts ++ accessesFrom name (sts.foldl (Stmt.targets name) τ) rest := by
  induction sts with
  | nil => simp [accessesFrom]
  | cons st sts ih =>
    intro τ
    simp [accessesFrom, ih]

mutual

/-- The walk over a syntax tree of some statements notes what they access. -/
theorem Tracks.walk_parsed (hf : IsName s.name) : ∀ {sts : List Stmt} {n : Node}, Parsed sts n →
    ∀ {Γ : Decls} {τ : Targets String} {es : List (Access String)} {w : Walk}, Scoped Γ sts →
      (∀ st ∈ sts, ∀ p ∈ st.moved?, K.moves p) → (∀ d ∈ locals sts, d.Placed s.types pointees) →
      Tracks s K f₀ pointees Γ τ es w →
      Runs (walk calls s n) w fun _ w' => Tracks s K f₀ pointees (sts.foldl Stmt.decls Γ)
        (sts.foldl (Stmt.targets (Var.full s.name)) τ)
          (es ++ accessesFrom (Var.full s.name) τ sts) w'
  | _, _, .stmt hn, Γ, τ, es, w, hs, hm, hd, h => by
      refine Runs.mono (h.walk_stmt hf hs.1 (hm _ (List.mem_singleton_self _)) hd hn)
        fun _ w' h' => ?_
      simpa [accessesFrom] using h'
  | _, _, .group hk hcs, Γ, τ, es, w, hs, hm, hd, h => by
      rw [walk_group hk]
      exact Tracks.walk_parsedEach hf hcs hs hm hd h

/-- The walk over syntax trees, one after the other, notes what their statements access. -/
theorem Tracks.walk_parsedEach (hf : IsName s.name) :
    ∀ {sts : List Stmt} {cs : List Node}, ParsedEach sts cs →
      ∀ {Γ : Decls} {τ : Targets String} {es : List (Access String)} {w : Walk}, Scoped Γ sts →
      (∀ st ∈ sts, ∀ p ∈ st.moved?, K.moves p) → (∀ d ∈ locals sts, d.Placed s.types pointees) →
      Tracks s K f₀ pointees Γ τ es w →
      Runs ((cs.map (walk calls s)).forM id) w
        fun _ w' => Tracks s K f₀ pointees (sts.foldl Stmt.decls Γ)
          (sts.foldl (Stmt.targets (Var.full s.name)) τ)
          (es ++ accessesFrom (Var.full s.name) τ sts) w'
  | _, _, .nil, Γ, τ, es, w, _, _, _, h => by
      exact Ends.pure (by simpa [accessesFrom] using h)
  | _, _, .cons hn hcs, Γ, τ, es, w, hs, hm, hd, h => by
      rw [scoped_append] at hs
      rw [locals_append] at hd
      refine Runs.bind (Tracks.walk_parsed hf hn hs.1
        (fun st hst => hm st (List.mem_append_left _ hst))
        (fun d hmem => hd d (List.mem_append_left _ hmem)) h) fun _ w' h' => ?_
      refine Runs.mono (Tracks.walk_parsedEach hf hcs hs.2
        (fun st hst => hm st (List.mem_append_right _ hst))
        (fun d hmem => hd d (List.mem_append_right _ hmem)) h') fun _ w'' h'' => ?_
      rw [List.foldl_append, List.foldl_append, accessesFrom_append, ← List.append_assoc]
      exact h''

end

end Tracks

end Footprint.StraightLine
