import Footprint.Proofs.Initialisers.Assigned
import Footprint.Proofs.StraightLine.Analysis

/-!
# Pointers to pointers

Assignments between pointers of any level: `p = &v`, `p = q` and `p = *q`.  The
target of a right side is that of the one name in it, with the stars taken away.
So `p = *q` is taken like `p = q`: `p` gets the target of `q`, and not the target
of that.  For well typed assignments the two agree only if `q` has no target.

`Pointing` ties the memory and the table of pointers to the declared variables
and to where the pointers point.  Every assignment keeps it, so it holds after
any number of them.
-/

namespace Footprint.StraightLine

open Memory (Linked Marked)

/-! ## Assignments between pointers -/

/-- How many stars the type of a declared variable has. -/
def Levels : Type := Var → Option Nat

/-- An assignment between pointers: `p = &v`, `p = q` or `p = *q`. -/
inductive Aiming where
  | point (p v : Var)
  | copy (p q : Var)
  | load (p q : Var)
deriving Repr, DecidableEq

namespace Aiming

/-- The pointer that is assigned. -/
def pointer : Aiming → Var
  | .point p _ | .copy p _ | .load p _ => p

/-- The target that the pointer gets. -/
def given (τ : Targets Var) : Aiming → Option Var
  | .point _ v => some v
  | .copy _ q | .load _ q => τ q

/-- The target that the right side stands for. -/
def meant (τ : Targets Var) : Aiming → Option Var
  | .point _ v => some v
  | .copy _ q => τ q
  | .load _ q => (τ q).bind τ

/-- The targets after an assignment. -/
def step (τ : Targets Var) (st : Aiming) : Targets Var := τ.set st.pointer (st.given τ)

/-- The targets after some assignments, from none. -/
def targets (ss : List Aiming) : Targets Var := ss.foldl step fun _ => none

/-- Both sides have the same number of stars. -/
def Typed (Γ : Levels) : Aiming → Prop
  | .point p v => ∃ k, Γ p = some (k + 1) ∧ Γ v = some k
  | .copy p q => ∃ k, Γ p = some (k + 1) ∧ Γ q = some (k + 1)
  | .load p q => ∃ k, Γ p = some (k + 1) ∧ Γ q = some (k + 2)

/-- The syntax tree of an assignment. -/
inductive Parsed : Aiming → Node → Prop where
  | point {p v : Var} {n : Node} : (Stmt.point p v).Parsed n → Parsed (.point p v) n
  | copy {p q : Var} {n : Node} : (Stmt.copy p q).Parsed n → Parsed (.copy p q) n
  | load {p q : Var} {i : NodeInfo} {a b : Node} {d : Option Node} : i.kind = .binary →
      i.tokens = [p.name, "=", "*", q.name] → (Expr.use (.var p)).Parsed a →
      (Expr.use (.deref q)).Parsed b → Parsed (.load p q) (.mk i [a, b] d)

end Aiming

/-! ## Where the pointers point -/

/-- The address of a target. -/
def blockOf (β : Var → Nat) (t : Option Var) : Option Int := t.map fun v => Int.ofNat (β v)

/-- The memory and the table of pointers agree with the declared variables, their blocks and their
targets.  No name has two meanings. -/
structure Pointing (f : String) (Γ : Levels) (β : Var → Nat) (τ : Targets Var) (m : Memory)
    (ps : Table String (Option Int)) : Prop where
  linked : Linked none m
  named : ∀ x k, Γ x = some k → IsName x.name
  bound : ∀ x k, Γ x = some k →
    ∃ id, m.At (x.full f) (β x) id ∧ (m.varOf id).isPointer = decide (0 < k)
  unowned : ∀ x k, Γ (.own x) = some k → m.names.get? x = none
  unhidden : ∀ x k, Γ (.global x) = some k → m.names.get? (ownedName f x) = none
  declared : ∀ p v, τ p = some v → ∃ k, Γ v = some k
  aims : ∀ p k, Γ p = some (k + 1) → (ps.get? (p.full f)).join = blockOf β (τ p)
  remembered : ∀ p k a id, Γ p = some (k + 1) → m.At (p.full f) a id →
    (ps.get? (p.full f)).join = none → (m.varOf id).target = none

namespace Pointing

section Memory

variable {f : String} {Γ : Levels} {β : Var → Nat} {τ : Targets Var} {m m' : Memory}
variable {ps : Table String (Option Int)} (h : Pointing f Γ β τ m ps)

include h

/-- Marks do not matter. -/
theorem marked (hm : Marked m m') : Pointing f Γ β τ m' ps where
  linked := hm.linked
  named := h.named
  bound x k hx := by
    obtain ⟨id, hat, hpointer⟩ := h.bound x k hx
    exact ⟨id, hat.marked hm, (Variable.eq_of_unmarked (hm.var id) fun _ => rfl).trans hpointer⟩
  unowned x k hx := by rw [hm.names]; exact h.unowned x k hx
  unhidden x k hx := by rw [hm.names]; exact h.unhidden x k hx
  declared := h.declared
  aims := h.aims
  remembered p k a id hp hat hnone :=
    (Variable.eq_of_unmarked (hm.var id) fun _ => rfl).trans
      (h.remembered p k a id hp (hat.of_marked hm) hnone)

variable {k : Nat} {t : Option Var}

theorem full_inj {x y : Var} {j : Nat} (hx : Γ x = some k) (hy : Γ y = some j)
    (he : x.full f = y.full f) : x = y := by
  cases x with
  | global x =>
    cases y with
    | global y => exact congrArg Var.global he
    | own y => exact absurd he ((h.named _ k hx).ne_ownedName f y)
  | own x =>
    cases y with
    | global y => exact absurd he.symm ((h.named _ j hy).ne_ownedName f x)
    | own y => exact congrArg Var.own (ownedName_inj.mp he)

/-- Different variables have different blocks. -/
theorem block_inj {x y : Var} {j : Nat} (hx : Γ x = some k) (hy : Γ y = some j)
    (he : β x = β y) : x = y := by
  obtain ⟨id, hat, _⟩ := h.bound x k hx
  obtain ⟨id', hat', _⟩ := h.bound y j hy
  rw [← he] at hat'
  obtain ⟨b, hb, hvar⟩ := hat.exists_block
  obtain ⟨b', hb', hvar'⟩ := hat'.exists_block
  cases hb.symm.trans hb'
  cases hvar.symm.trans hvar'
  exact h.full_inj hx hy ((hat.name h.linked).symm.trans (hat'.name h.linked))

theorem owns (ht : ∀ v, t = some v → ∃ k, Γ v = some k) : m.OwnsTarget (blockOf β t) := by
  cases t with
  | none => exact Memory.ownsTarget_none
  | some v =>
    obtain ⟨k, hv⟩ := ht v rfl
    obtain ⟨id, hat, _⟩ := h.bound v k hv
    obtain ⟨b, hb, _⟩ := hat.exists_block
    exact (h.linked.owns hb).target

/-- A pointer is given a new target, in the table and in its variable. -/
theorem retarget {p : Var} (hp : Γ p = some (k + 1)) {id : VarId}
    (hat : m.At (p.full f) (β p) id) (ht : ∀ v, t = some v → ∃ k, Γ v = some k) :
    Pointing f Γ β (τ.set p t) (m.setVar id fun v => { v with target := blockOf β t })
      (ps.set (p.full f) (blockOf β t)) where
  linked := h.linked.setVar_same (fun _ => rfl) fun _ => rfl
  named := h.named
  bound x j hx := by
    obtain ⟨i, hb, hpointer⟩ := h.bound x j hx
    exact ⟨i, ⟨hb.address, hb.var⟩, (varOf_setTarget m id i _).2.trans hpointer⟩
  unowned := h.unowned
  unhidden := h.unhidden
  declared q v hv := by
    unfold Targets.set at hv
    split at hv
    · exact ht v hv
    · exact h.declared q v hv
  aims q j hq := Targets.agree_set (P := fun target t => target = blockOf β t)
    (h.full_inj hq hp) rfl (h.aims q j hq)
  remembered q j b i hq hb hnone := by
    have hb : m.At (q.full f) b i := ⟨hb.address, hb.var⟩
    exact target_setTarget h.linked hat hb hnone (h.remembered q j b i hq hb)

end Memory

/-! ## Lookups -/

section Walk

variable {s : Scope} {w : Walk} {calls : CallIndex} {Γ : Levels} {β : Var → Nat} {τ : Targets Var}
variable {k : Nat} {p : Var} {id : VarId} {t : Option Var}

section

variable (h : Pointing s.name Γ β τ w.memory w.pointers)

include h

theorem addressIn {x : Var} (hx : Γ x = some k) :
    Walk.addressIn s x.name w = .ok (some (β x)) w := by
  obtain ⟨id, hat, _⟩ := h.bound x k hx
  refine addressIn_at (h.named x k hx) hat ?_
  rintro y rfl
  exact h.unowned y k hx

theorem pointerKey (hf : IsName s.name) (hp : Γ p = some (k + 1)) :
    Walk.pointerKey s p.name w = .ok (some (p.full s.name)) w := by
  obtain ⟨id, hat, hpointer⟩ := h.bound p (k + 1) hp
  refine pointerKey_at h.linked (h.named p _ hp) hat (hpointer.trans (by simp)) ?_
  rintro x rfl
  exact pointerNamed_none (addressOf_none (ownedName_ne_empty _ _)
    (ownedName_plain hf (h.named _ _ hp)) (h.unhidden x _ hp))

theorem remembered_none (hp : Γ p = some (k + 1)) {a : Nat}
    (hat : w.memory.At (p.full s.name) a id)
    (hnone : (w.pointers.get? (p.full s.name)).join = none) :
    Walk.remembered (some (id, w.memory.varOf id)) = none := by
  simp [Walk.remembered, Variable.liveTarget, h.remembered p k a id hp hat hnone]

theorem targetOf (hp : Γ p = some (k + 1)) :
    Walk.targetOf s (p.full s.name) w = .ok (blockOf β (τ p)) w := by
  obtain ⟨id, hat, _⟩ := h.bound p (k + 1) hp
  rw [← h.aims p k hp]
  exact targetOf_at h.linked (full_ne_empty (h.named p _ hp)) hat (h.remembered_none hp hat)

/-! ## Steps -/

theorem repoint (hp : Γ p = some (k + 1)) (ht : ∀ v, t = some v → ∃ k, Γ v = some k) :
    Runs (Walk.repoint s (p.full s.name) (blockOf β t)) w fun _ w' =>
      Pointing s.name Γ β (τ.set p t) w'.memory w'.pointers := by
  obtain ⟨id, hat, hpointer⟩ := h.bound p (k + 1) hp
  have hold : ((w.pointers.get? (p.full s.name)).join <|>
      Walk.remembered (some (id, w.memory.varOf id))) = blockOf β (τ p) := by
    rw [← h.aims p k hp]
    cases hj : (w.pointers.get? (p.full s.name)).join with
    | none => rw [h.remembered_none hp hat hj]; rfl
    | some a => rfl
  refine Runs.mono (repoint_at h.linked (full_ne_empty (h.named p _ hp)) hat
    (hpointer.trans (by simp)) (by rw [hold]; exact h.owns (h.declared p)) (h.owns ht)) ?_
  rintro _ _ ⟨m, m', hm, hm', rfl⟩
  exact ((h.marked hm).retarget hp (hat.marked hm) ht).marked hm'

end

theorem mark_read (hl : Linked none w.memory) {n : String} {a : Nat} (hat : w.memory.At n a id) :
    Runs (Walk.mark s .read a) w fun _ w' => w'.pointers = w.pointers ∧ Marked w.memory w'.memory :=
    by
  obtain ⟨b, hb, _⟩ := hat.exists_block
  refine .bind_ok (variableAt_at hl hat) ?_
  dsimp only
  split
  · exact Ends.pure ⟨rfl, .refl hl⟩
  · refine .bind_ok rfl ?_
    split
    · exact Ends.pure ⟨rfl, .refl hl⟩
    · refine Ends.bind (Ends.zoom ?_)
      exact Runs.mono (Memory.read_marked hl hb s.name) fun _ m hm => Ends.modify ⟨rfl, hm⟩

/-- The walk over a pointer, or over what it points to, moves no pointer. -/
theorem walk_place (h : Pointing s.name Γ β τ w.memory w.pointers) (hf : IsName s.name) {l : Place}
    (hl : Γ l.base = some (k + 1)) {n : Node} (hn : (Expr.use l).Parsed n) :
    Runs (Walk.walk calls s n) w fun _ w' => Pointing s.name Γ β τ w'.memory w'.pointers := by
  generalize he : Expr.use l = e at hn
  induction hn with
  | @var x i d hk hs =>
    cases he
    obtain ⟨id, hat, hpointer⟩ := h.bound x (k + 1) hl
    refine Runs.mono (walk_pointer h.linked (h.named x _ hl) hat (hpointer.trans (by simp))
      (h.addressIn hl) (.var hk hs)) ?_
    rintro _ _ rfl
    exact h
  | @deref q i c d hk ht hc =>
    cases he
    rw [walk_deref hk (operatorOf_deref (h.named q _ hl) ht)]
    have htarget : Walk.targetOf s (q.full s.name) w = .ok (blockOf β (τ q)) w := h.targetOf hl
    refine .bind_ok (derefTarget_var (h.pointerKey hf hl) htarget hc) ?_
    cases hq : τ q with
    | none => exact Ends.pure h
    | some v =>
      obtain ⟨j, hv⟩ := h.declared q v hq
      obtain ⟨id, hat, _⟩ := h.bound v j hv
      refine Runs.mono (mark_read h.linked hat) ?_
      rintro _ w' ⟨hpointers, hmarked⟩
      rw [hpointers]
      exact h.marked hmarked
  | implicit hk _ ih =>
    rw [walk_group (by rw [hk]; rfl)]
    exact Runs.bind (ih he) fun _ _ h' => .pure h'
  | literal => cases he
  | paren => cases he
  | binary => cases he

/-- The walk over an assignment of a pointer, from its right side. -/
theorem walk_assigned (h : Pointing s.name Γ β τ w.memory w.pointers) (hf : IsName s.name)
    (hp : Γ p = some (k + 1))
    (ht : ∀ v, t = some v → ∃ k, Γ v = some k) {i : NodeInfo} {a b : Node} {d : Option Node}
    (hk : i.kind = .binary) (hop : Node.operatorOf i = "=") (ha : (Expr.use (.var p)).Parsed a)
    (htarget : Walk.pointerTarget s b w = .ok (blockOf β t) w)
    (hb : ∀ {w : Walk}, Pointing s.name Γ β (τ.set p t) w.memory w.pointers →
      Runs (Walk.walk calls s b) w fun _ w' =>
        Pointing s.name Γ β (τ.set p t) w'.memory w'.pointers) :
    Runs (Walk.walk calls s (.mk i [a, b] d)) w fun _ w' =>
      Pointing s.name Γ β (τ.set p t) w'.memory w'.pointers := by
  rw [walk_assign hk hop]
  refine .bind_ok (assignedPointer_var (h.pointerKey hf hp) ha) (.bind_ok htarget ?_)
  exact Runs.bind (h.repoint hp ht) fun _ w' h' => hb h'

/-- One assignment moves its pointer to the target that it gives. -/
theorem walk_step (h : Pointing s.name Γ β τ w.memory w.pointers) (hf : IsName s.name) {st : Aiming}
    (hst : st.Typed Γ) {n : Node} (hn : st.Parsed n) :
    Runs (Walk.walk calls s n) w fun _ w' =>
      Pointing s.name Γ β (st.step τ) w'.memory w'.pointers := by
  cases hn with
  | @point p v n hn =>
    obtain ⟨k, hp, hv⟩ := hst
    cases hn with
    | @point _ _ i a b d hk ht ha hb =>
      have hnamed := h.named v k hv
      refine h.walk_assigned hf hp (t := some v) (fun u hu => ⟨k, Option.some.inj hu ▸ hv⟩) hk
        (operatorOf_assignPointer (h.named p _ hp) hnamed (by simp [ht]) (by simp [ht])) ha
        (pointerTarget_address hnamed (h.addressIn hv) hb) ?_
      intro w' h'
      refine Runs.mono (walk_addressParsed hnamed hb w') ?_
      rintro _ _ rfl
      exact h'
  | @copy p q n hn =>
    obtain ⟨k, hp, hq⟩ := hst
    cases hn with
    | @copy _ _ i a b d hk ht ha hb =>
      exact h.walk_assigned hf hp (t := τ q) (h.declared q) hk
        (operatorOf_assignPointer (h.named p _ hp) (h.named q _ hq) (by simp [ht]) (by simp [ht]))
        ha
        (pointerTarget_place (l := .var q) (h.named q _ hq) (h.pointerKey hf hq) (h.targetOf hq) hb)
        fun h' => h'.walk_place (l := .var q) hf hq hb
  | @load p q i a b d hk ht ha hb =>
    obtain ⟨k, hp, hq⟩ := hst
    exact h.walk_assigned hf hp (t := τ q) (h.declared q) hk
      (operatorOf_assignPointer (h.named p _ hp) (h.named q _ hq) (by simp [ht]) (by simp [ht])) ha
      (pointerTarget_place (l := .deref q) (h.named q _ hq) (h.pointerKey hf hq) (h.targetOf hq) hb)
      fun h' => h'.walk_place (l := .deref q) hf hq hb

/-- A sequence of assignments moves the pointers one after the other. -/
theorem walk_steps (hf : IsName s.name) {ss : List Aiming} {ns : List Node}
    (hns : List.Forall₂ Aiming.Parsed ss ns) : ∀ {τ : Targets Var} {w : Walk},
    (∀ st ∈ ss, st.Typed Γ) → Pointing s.name Γ β τ w.memory w.pointers →
      Runs (ns.forM (Walk.walk calls s)) w fun _ w' =>
        Pointing s.name Γ β (ss.foldl Aiming.step τ) w'.memory w'.pointers := by
  induction hns with
  | nil => exact fun _ h => Ends.pure h
  | cons hn _ ih =>
    intro τ w hss h
    refine Runs.bind (h.walk_step hf (hss _ (List.mem_cons_self ..)) hn) fun _ w' h' => ?_
    exact ih (fun st hst => hss st (List.mem_cons_of_mem _ hst)) h'

end Walk

end Pointing

/-! ## Targets and levels -/

/-- The targets respect the types. -/
def Targets.Level (Γ : Levels) (τ : Targets Var) : Prop :=
  ∀ p v, τ p = some v → ∃ k, Γ p = some (k + 1) ∧ Γ v = some k

namespace Aiming

/-- The assignment reads no target through a pointer that has one. -/
def Shallow (τ : Targets Var) (st : Aiming) : Prop := ∀ p q, st = .load p q → τ q = none

/-- Every assignment of a sequence is such that, with the targets before it. -/
def Along (P : Targets Var → Aiming → Prop) : Targets Var → List Aiming → Prop
  | _, [] => True
  | τ, st :: ss => P τ st ∧ Along P (st.step τ) ss

variable {Γ : Levels} {β : Var → Nat} {τ : Targets Var} {st : Aiming}

/-- On levels, an assignment gives the target that it stands for only if it reads none through a
pointer: the target of a target is on a lower level. -/
theorem given_eq_meant_iff (hβ : ∀ x y k j, Γ x = some k → Γ y = some j → β x = β y → x = y)
    (hτ : τ.Level Γ) : blockOf β (st.given τ) = blockOf β (st.meant τ) ↔ st.Shallow τ := by
  cases st with
  | point | copy => simp [given, meant, Shallow]
  | load p q =>
    cases hq : τ q with
    | none => simp [given, meant, Shallow, hq]
    | some v =>
      have hne : blockOf β (some v) ≠ blockOf β (τ v) := by
        intro he
        obtain ⟨u, hu, hblock⟩ := Option.map_eq_some_iff.mp he.symm
        obtain ⟨k, hv, hk⟩ := hτ v u hu
        cases hβ v u _ _ hv hk (Int.ofNat.inj hblock).symm
        rw [hk] at hv
        simp at hv
      simp [given, meant, Shallow, hq, hne]

theorem Shallow.level (h : st.Shallow τ) (hτ : τ.Level Γ) (hst : st.Typed Γ) :
    (st.step τ).Level Γ := by
  intro x v hx
  unfold step Targets.set at hx
  split at hx
  · next he =>
    subst he
    cases st with
    | point p u =>
      cases hx
      exact hst
    | copy p q =>
      obtain ⟨k, hp, hq⟩ := hst
      obtain ⟨j, hj, hv⟩ := hτ q v hx
      rw [hj] at hq
      cases hq
      exact ⟨k, hp, hv⟩
    | load p q =>
      rw [given, h p q rfl] at hx
      cases hx
  · exact hτ x v hx

/-- All assignments of a sequence give the targets that they stand for exactly if none reads a
target through a pointer that has one. -/
theorem along_iff (hβ : ∀ x y k j, Γ x = some k → Γ y = some j → β x = β y → x = y)
    {ss : List Aiming} : ∀ {τ : Targets Var}, τ.Level Γ → (∀ st ∈ ss, st.Typed Γ) →
      (Along (fun τ st => blockOf β (st.given τ) = blockOf β (st.meant τ)) τ ss ↔
        Along Shallow τ ss) := by
  induction ss with
  | nil => exact fun _ _ => Iff.rfl
  | cons st ss ih =>
    intro τ hτ hss
    rw [Along, Along, given_eq_meant_iff hβ hτ]
    exact and_congr_right fun he => ih (he.level hτ (hss st (List.mem_cons_self ..)))
      fun st' hmem => hss st' (List.mem_cons_of_mem st hmem)

end Aiming

/-! ## The targets of a sequence -/

/-- The walk over assignments to pointers comes to an end.  Each pointer then has the target that
was given to it last.  The targets are those that are meant by the assignments if and only if no
assignment loads a pointer through another one. -/
theorem walk_aimings_targets (calls : CallIndex) {s : Scope} {w : Walk} {Γ : Levels}
    {β : Var → Nat} (hf : IsName s.name)
    (h : Pointing s.name Γ β (fun _ => none) w.memory w.pointers) {ss : List Aiming}
    {ns : List Node} (hns : List.Forall₂ Aiming.Parsed ss ns) {st : Aiming} {n : Node}
    (hn : st.Parsed n) (hss : ∀ st' ∈ ss ++ [st], st'.Typed Γ) :
    ∃ w₁ w₂, ns.forM (Walk.walk calls s) w = .ok ⟨⟩ w₁ ∧ Walk.walk calls s n w₁ = .ok ⟨⟩ w₂ ∧
      (∀ p k, Γ p = some (k + 1) →
        Walk.targetOf s (p.full s.name) w₁ = .ok (blockOf β (Aiming.targets ss p)) w₁ ∧
        Walk.targetOf s (p.full s.name) w₂ =
          .ok (blockOf β (if p = st.pointer then st.given (Aiming.targets ss)
            else Aiming.targets ss p)) w₂) ∧
      (Aiming.Along (fun τ st => blockOf β (st.given τ) = blockOf β (st.meant τ)) (fun _ => none)
          (ss ++ [st]) ↔
        Aiming.Along Aiming.Shallow (fun _ => none) (ss ++ [st])) := by
  have hst : st.Typed Γ := hss st (List.mem_append_right _ (List.mem_singleton.mpr rfl))
  have hbefore : Runs (ns.forM (Walk.walk calls s)) w fun _ w' =>
      Pointing s.name Γ β (Aiming.targets ss) w'.memory w'.pointers :=
    Pointing.walk_steps hf hns (fun st' hmem => hss st' (List.mem_append_left _ hmem)) h
  obtain ⟨_, w₁, hwalk, h₁⟩ := hbefore.exists_ok
  have hafter : Runs (Walk.walk calls s n) w₁ fun _ w' =>
      Pointing s.name Γ β (st.step (Aiming.targets ss)) w'.memory w'.pointers :=
    h₁.walk_step hf hst hn
  obtain ⟨_, w₂, hwalk', h₂⟩ := hafter.exists_ok
  refine ⟨w₁, w₂, hwalk, hwalk', fun p k hp => ⟨h₁.targetOf hp, h₂.targetOf hp⟩, ?_⟩
  exact Aiming.along_iff (fun x y k j hx hy => h.block_inj hx hy)
    (fun p v hv => absurd hv (by simp)) hss

/-! ## A pointer to a pointer -/

/-- Global variables with their levels. -/
def levelsOf (ds : List (String × Nat)) : Levels
  | .global x => ds.lookup x
  | .own _ => none

/-- A global variable that points nowhere and that no own variable hides. -/
def Unset (f : String) (m : Memory) (ps : Table String (Option Int)) (d : String × Nat) : Prop :=
  IsName d.1 ∧ m.names.get? (ownedName f d.1) = none ∧
    (m.named? d.1).map (fun v => (v.isPointer, v.target)) = some (decide (0 < d.2), none) ∧
    (ps.get? d.1).join = none

instance (f : String) (m : Memory) (ps : Table String (Option Int)) :
    DecidablePred (Unset f m ps) :=
  fun _ => inferInstanceAs (Decidable (_ ∧ _ ∧ _ ∧ _))

/-- Before any assignment. -/
theorem pointing_unset {f : String} {m : Memory} {ps : Table String (Option Int)}
    {ds : List (String × Nat)} (hl : Linked none m) (hds : ∀ d ∈ ds, Unset f m ps d) :
    Pointing f (levelsOf ds) (fun x => (m.address? (x.full f)).getD 0) (fun _ => none) m ps := by
  have hunset : ∀ {x k}, levelsOf ds x = some k → ∃ n, x = .global n ∧ Unset f m ps (n, k) := by
    intro x k hx
    cases x with
    | own x => cases hx
    | global x =>
      obtain ⟨l₁, l₂, rfl, _⟩ := List.lookup_eq_some_iff.mp hx
      exact ⟨x, rfl, hds (x, k) (by simp)⟩
  constructor
  case linked => exact hl
  case named =>
    intro x k hx
    obtain ⟨n, rfl, hn, _⟩ := hunset hx
    exact hn
  case bound =>
    intro x k hx
    obtain ⟨n, rfl, _, _, hvar, _⟩ := hunset hx
    obtain ⟨v, hv, hvalues⟩ := Option.map_eq_some_iff.mp hvar
    obtain ⟨a, id, hat, rfl⟩ := named?_eq_some.mp hv
    have ha : m.address? ((Var.global n).full f) = some a := hat.address
    rw [ha]
    exact ⟨id, hat, (Prod.mk.inj hvalues).1⟩
  case unowned =>
    intro x k hx
    cases hx
  case unhidden =>
    intro x k hx
    obtain ⟨n, hn, _, hown, _⟩ := hunset hx
    cases hn
    exact hown
  case declared =>
    intro p v hv
    cases hv
  case aims =>
    intro p k hp
    obtain ⟨n, rfl, _, _, _, hnone⟩ := hunset hp
    exact hnone
  case remembered =>
    intro p k a id hp hat _
    obtain ⟨n, rfl, _, _, hvar, _⟩ := hunset hp
    obtain ⟨v, hv, hvalues⟩ := Option.map_eq_some_iff.mp hvar
    obtain ⟨a', id', hat', rfl⟩ := named?_eq_some.mp hv
    obtain ⟨rfl, rfl⟩ := hat.unique hat'
    exact (Prod.mk.inj hvalues).2

/-- The tree of an assignment. -/
def Aiming.tree : Aiming → Node
  | .point p v => (Stmt.point p v).tree
  | .copy p q => (Stmt.copy p q).tree
  | .load p q =>
    .mk { kind := .binary, tokens := [p.name, "=", "*", q.name] }
      [p.tree, converted (Place.deref q).tree] none

theorem Aiming.parsed_tree (st : Aiming) : st.Parsed st.tree := by
  cases st with
  | point p v => exact .point (Stmt.parsed_tree _)
  | copy p q => exact .copy (Stmt.parsed_tree _)
  | load p q => exact .load rfl rfl p.parsed_tree (.implicit rfl (Place.parsed_tree _))

/-- `p = &x` and `q = &p`. -/
def aimQ : List Aiming :=
  [.point (.global "p") (.global "x"), .point (.global "q") (.global "p")]

/-- `r = *q`. -/
def loadR : Aiming := .load (.global "r") (.global "q")

/-- The variables of the sample. -/
def sampleLevels : List (String × Nat) := [("x", 0), ("p", 1), ("r", 1), ("q", 2)]

open Walk in
/-- A file with `int x`, pointers `p` and `r`, a pointer `q` to pointers, and a function `f` with
`p = &x`, `q = &p` and `r = *q`. -/
def levelFile : Files := fileOf
  [intVar "x", intPointer "p", intPointer "r", declarationOf .varDecl "q" "int **" .pointer,
    definedAs "f" ((aimQ ++ [loadR]).map Aiming.tree)]

theorem walk_aimings_targets_level :
    ∃ p w₁ w₂, Project.prepare levelFile "/p" {} = .ok ⟨⟩ p ∧
      p.analysis.memory.address? "x" = some 1 ∧ p.analysis.memory.address? "p" = some 2 ∧
      (aimQ.map Aiming.tree).forM (Walk.walk p.analysis.index (Walk.linkScope p))
        (Walk.entering p.analysis) = .ok ⟨⟩ w₁ ∧
      Walk.walk p.analysis.index (Walk.linkScope p) loadR.tree w₁ = .ok ⟨⟩ w₂ ∧
      Walk.targetOf (Walk.linkScope p) "p" w₁ = .ok (some 1) w₁ ∧
      Walk.targetOf (Walk.linkScope p) "q" w₁ = .ok (some 2) w₁ ∧
      Walk.targetOf (Walk.linkScope p) "r" w₂ = .ok (some 2) w₂ := by
  have hrun : (after? (Project.prepare levelFile "/p" {})).map (fun p =>
      (sampleLevels.all fun d => Unset "f" p.analysis.memory p.analysis.pointers d,
        [p.analysis.memory.address? "x", p.analysis.memory.address? "p"])) =
      some (true, [some 1, some 2]) := by decide +kernel
  obtain ⟨p, hp, hvalues⟩ := ok_of_map hrun
  simp only [Prod.mk.injEq, List.cons.injEq, and_true] at hvalues
  obtain ⟨hall, hx, hpAddress⟩ := hvalues
  have hreached : Project.Reached levelFile "p" p := .read hp
  have hstart := pointing_unset (f := "f") hreached.aimed.analysis.memory.linked
    fun d hd => of_decide_eq_true (List.all_eq_true.mp hall d hd)
  have hns : List.Forall₂ Aiming.Parsed aimQ (aimQ.map Aiming.tree) :=
    List.forall₂_map_right_iff.mpr (List.forall₂_same.mpr fun st _ => st.parsed_tree)
  have htyped : ∀ st ∈ aimQ ++ [loadR], st.Typed (levelsOf sampleLevels) := by
    intro st hst
    simp only [aimQ, loadR, List.cons_append, List.nil_append, List.mem_cons, List.not_mem_nil,
      or_false] at hst
    obtain rfl | rfl | rfl := hst
    · exact ⟨0, by decide, by decide⟩
    · exact ⟨1, by decide, by decide⟩
    · exact ⟨0, by decide, by decide⟩
  obtain ⟨w₁, w₂, hwalk, hload, htargets, _⟩ := walk_aimings_targets p.analysis.index
    (s := Walk.linkScope p) (w := Walk.entering p.analysis) (by decide : IsName "f") hstart hns
    loadR.parsed_tree htyped
  have hblock : ∀ {n a}, p.analysis.memory.address? n = some a →
      blockOf (fun x => (p.analysis.memory.address? (x.full "f")).getD 0) (some (.global n)) =
        some (Int.ofNat a) := by
    intro n a ha
    simp [blockOf, Var.full, ha]
  have htargetP := (htargets (.global "p") 0 (by decide)).1
  have htargetQ := (htargets (.global "q") 1 (by decide)).1
  have htargetR := (htargets (.global "r") 0 (by decide)).2
  rw [show Aiming.targets aimQ (.global "p") = some (.global "x") by decide, hblock hx] at htargetP
  rw [show Aiming.targets aimQ (.global "q") = some (.global "p") by decide,
    hblock hpAddress] at htargetQ
  rw [if_pos (by decide : Var.global "r" = loadR.pointer),
    show loadR.given (Aiming.targets aimQ) = some (.global "p") by decide,
    hblock hpAddress] at htargetR
  exact ⟨p, w₁, w₂, hp, hx, hpAddress, hwalk, hload, htargetP, htargetQ, htargetR⟩

/-- After `p = &x`, `q = &p` and `r = *q`, the pointer `r` points to `p` and not to `x`. -/
theorem load_misses_level :
    ∃ p p' f, Project.prepare levelFile "/p" {} = .ok ⟨⟩ p ∧ Project.analyse 0 p = .ok ⟨⟩ p' ∧
      p'.record? 0 = some f ∧ p'.analysis.memory.address? "x" = some 1 ∧
      p'.analysis.memory.address? "p" = some 2 ∧ p'.analysis.memory.address? "r" = some 3 ∧
      f.pointerEnds.entries = [(2, some 1), (3, some 2), (4, some 2)] := by
  have hrun : Project.firstRun? levelFile (fun _ p' f => ([p'.analysis.memory.address? "x",
      p'.analysis.memory.address? "p", p'.analysis.memory.address? "r"], f.pointerEnds.entries)) =
      some ([some 1, some 2, some 3], [(2, some 1), (3, some 2), (4, some 2)]) := by decide +kernel
  obtain ⟨p, p', f, hp, hp', hf, hvalues⟩ := Project.exists_of_firstRun? hrun
  simp only [Prod.mk.injEq, List.cons.injEq, and_true] at hvalues
  obtain ⟨⟨hx, hpAddress, hr⟩, hends⟩ := hvalues
  exact ⟨p, p', f, hp, hp', hf, hx, hpAddress, hr, hends⟩

end Footprint.StraightLine
