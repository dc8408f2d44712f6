import Footprint.Analysis.State

/-!
# How a step ends

A step gives a value or stops with a fault, and has changed the state either
way.  `Ends` says what holds at its end.  It takes one condition for values and
one for faults, since what was changed before a fault stays changed.  `Keeps` is
the special case of a property that the step does not lose.

There is one lemma for each way in which steps are put together.
-/

namespace Footprint

variable {σ τ α β : Type}

/-- The step ends from `s` in a value and a state with `Q`, or in a fault and a state with `E`. -/
structure Ends (x : EStateM Fault σ α) (s : σ) (Q : α → σ → Prop) (E : Fault → σ → Prop) :
    Prop where
  value : ∀ a s', x s = .ok a s' → Q a s'
  fault : ∀ e s', x s = .error e s' → E e s'

/-- The step leads from one state to the other, to a value or to a fault.  Where a layout never
ends it leads nowhere. -/
def Leads (x : EStateM Fault σ α) (s s' : σ) : Prop :=
  (∃ a, x s = .ok a s') ∨ ∃ e, e ≠ .endless ∧ x s = .error e s'

variable {x : EStateM Fault σ α} {f : α → EStateM Fault σ β} {s s' : σ} {a : α}
variable {r : EStateM.Result Fault σ α}

theorem bind_of_ok (h : x s = .ok a s') : (x >>= f) s = f a s' := by
  show EStateM.bind x f s = f a s'
  rw [EStateM.bind, h]

theorem bind_of_error {e : Fault} (h : x s = .error e s') : (x >>= f) s = .error e s' := by
  show EStateM.bind x f s = .error e s'
  rw [EStateM.bind, h]

/-- Two steps give a value if both do. -/
theorem exists_of_bind {b : β}
    (h : (x >>= f) s = .ok b s') : ∃ a s₁, x s = .ok a s₁ ∧ f a s₁ = .ok b s' := by
  cases hx : x s with
  | ok a s₁ => exact ⟨a, s₁, rfl, by rwa [bind_of_ok hx] at h⟩
  | error e s₁ =>
    rw [bind_of_error hx] at h
    cases h

theorem orFault_of_ok {x : Except Fault α} (h : x = .ok a) (s : σ) : orFault x s = .ok a s := by
  rw [h]
  rfl

section Ends

variable {s s' : σ} {Q : α → σ → Prop} {E : Fault → σ → Prop} {R : β → σ → Prop}
variable {x : EStateM Fault σ α} {a : α} {f : α → EStateM Fault σ β}

theorem Ends.of_ok (h : x s = .ok a s') (hq : Q a s') : Ends x s Q E where
  value a₁ s₁ h₁ := by rw [h] at h₁; cases h₁; exact hq
  fault e s₁ h₁ := by rw [h] at h₁; cases h₁

theorem Ends.of_error {e : Fault} (h : x s = .error e s') (he : E e s') : Ends x s Q E where
  value a s₁ h₁ := by rw [h] at h₁; cases h₁
  fault e₁ s₁ h₁ := by rw [h] at h₁; cases h₁; exact he

/-- A step whose faults are excluded gives a value. -/
theorem Ends.exists_ok (h : Ends x s Q fun _ _ => False) : ∃ a s', x s = .ok a s' ∧ Q a s' := by
  cases hx : x s with
  | ok a s' => exact ⟨a, s', rfl, h.value a s' hx⟩
  | error e s' => exact (h.fault e s' hx).elim

/-- What a step has at its end, whatever the end is. -/
theorem Ends.leads {P : σ → Prop}
    (h : Ends x s (fun _ => P) fun _ => P) (hx : Leads x s s') : P s' := by
  rcases hx with ⟨a, hx⟩ | ⟨e, _, hx⟩
  · exact h.value a s' hx
  · exact h.fault e s' hx

theorem Ends.mono {Q' : α → σ → Prop} {E' : Fault → σ → Prop} (h : Ends x s Q E)
    (hq : ∀ a s', Q a s' → Q' a s') (he : ∀ e s', E e s' → E' e s') : Ends x s Q' E' where
  value a s' hx := hq a s' (h.value a s' hx)
  fault e s' hx := he e s' (h.fault e s' hx)

theorem Ends.of_eq {y : EStateM Fault σ α} (h : x s = y s) (hy : Ends y s Q E) : Ends x s Q E where
  value a s' hx := hy.value a s' (h ▸ hx)
  fault e s' hx := hy.fault e s' (h ▸ hx)

theorem Ends.pure (h : Q a s) : Ends (pure a : EStateM Fault σ α) s Q E := .of_ok rfl h

theorem Ends.throw {e : Fault} (h : E e s) : Ends (throw e : EStateM Fault σ α) s Q E :=
  .of_error rfl h

theorem Ends.get {Q : σ → σ → Prop} (h : Q s s) : Ends (get : EStateM Fault σ σ) s Q E :=
  .of_ok rfl h

theorem Ends.set {Q : PUnit → σ → Prop} (h : Q ⟨⟩ s') :
    Ends (set s' : EStateM Fault σ PUnit) s Q E := .of_ok rfl h

theorem Ends.modify {Q : PUnit → σ → Prop} {f : σ → σ} (h : Q ⟨⟩ (f s)) :
    Ends (modify f : EStateM Fault σ PUnit) s Q E := .of_ok rfl h

theorem Ends.bind (h : Ends x s (fun a s' => Ends (f a) s' R E) E) : Ends (x >>= f) s R E := by
  cases hx : x s with
  | ok a s₁ =>
    have hend := h.value a s₁ hx
    refine ⟨fun b s₂ h₂ => hend.value b s₂ ?_, fun e s₂ h₂ => hend.fault e s₂ ?_⟩
    · rwa [bind_of_ok hx] at h₂
    · rwa [bind_of_ok hx] at h₂
  | error e s₁ => exact .of_error (bind_of_error hx) (h.fault e s₁ hx)

/-- A step whose result and state are known, before another one. -/
theorem Ends.bind_ok (hx : x s = .ok a s') (hf : Ends (f a) s' R E) : Ends (x >>= f) s R E :=
  Ends.bind (.of_ok hx hf)

theorem Ends.orFault {x : Except Fault α} (hq : ∀ a, x = .ok a → Q a s)
    (he : ∀ e, x = .error e → E e s) : Ends (orFault x) s Q E := by
  cases x with
  | ok a => exact .pure (hq a rfl)
  | error e => exact .throw (he e rfl)

theorem ok_of_zoom {part : σ → τ} {put : τ → σ → σ} {x : EStateM Fault τ α} {s' : σ}
    (h : zoom part put x s = .ok a s') : ∃ t, x (part s) = .ok a t ∧ s' = put t s := by
  unfold zoom at h
  split at h
  · next b t hx =>
    cases h
    exact ⟨t, hx, rfl⟩
  · cases h

theorem Ends.zoom {part : σ → τ} {put : τ → σ → σ} {x : EStateM Fault τ α}
    (h : Ends x (part s) (fun a t => Q a (put t s)) fun e t => E e (put t s)) :
    Ends (zoom part put x) s Q E := by
  cases hx : x (part s) with
  | ok a t => exact .of_ok (by rw [Footprint.zoom, hx]) (h.value a t hx)
  | error e t => exact .of_error (by rw [Footprint.zoom, hx]) (h.fault e t hx)

end Ends

/-- The step ends from `s` in a value and a state with `Q`. -/
abbrev Runs (x : EStateM Fault σ α) (s : σ) (Q : α → σ → Prop) : Prop :=
  Ends x s Q fun _ _ => False

section Runs

variable {s : σ} {Q : α → σ → Prop} {R : β → σ → Prop} {x : EStateM Fault σ α}

theorem Runs.mono {Q' : α → σ → Prop} (h : Runs x s Q) (hq : ∀ a s', Q a s' → Q' a s') :
    Runs x s Q' :=
  Ends.mono h hq fun _ _ hf => hf

theorem Runs.bind {f : α → EStateM Fault σ β} (h : Runs x s Q)
    (hf : ∀ a s', Q a s' → Runs (f a) s' R) : Runs (x >>= f) s R :=
  Ends.bind (h.mono hf)

end Runs

/-- The step ends from `s` in a value exactly if `p` holds, and then in a state with `Q`. -/
abbrev Decides (x : EStateM Fault σ α) (s : σ) (p : Prop) (Q : α → σ → Prop) : Prop :=
  Ends x s (fun a s' => p ∧ Q a s') fun _ _ => ¬ p

theorem Decides.ok_iff {p : Prop} {Q : α → σ → Prop}
    (h : Decides x s p Q) : (∃ a s', x s = .ok a s') ↔ p := by
  constructor
  · rintro ⟨a, s', hok⟩
    exact (h.value a s' hok).1
  · intro hp
    cases hx : x s with
    | ok a s' => exact ⟨a, s', rfl⟩
    | error e s' => exact absurd hp (h.fault e s' hx)

/-! ## Outcomes of closed steps -/

/-- The value, if there is one. -/
def value? : EStateM.Result Fault σ α → Option α
  | .ok a _ => some a
  | .error _ _ => none

/-- The state, if there was no fault. -/
def after? : EStateM.Result Fault σ PUnit → Option σ
  | .ok _ s => some s
  | .error _ _ => none

theorem exists_of_value? (h : value? r = some a) : ∃ s, r = .ok a s := by
  cases r with
  | ok b s =>
    cases h
    exact ⟨s, rfl⟩
  | error e s => cases h

/-- The fault, if there was one. -/
def fault? : EStateM.Result Fault σ α → Option Fault
  | .ok _ _ => none
  | .error e _ => some e

theorem exists_of_fault? {e : Fault} (h : fault? r = some e) : ∃ s, r = .error e s := by
  cases r with
  | ok a s => cases h
  | error e' s =>
    cases h
    exact ⟨s, rfl⟩

theorem ok_of_after? {r : EStateM.Result Fault σ PUnit} (h : after? r = some s) : r = .ok ⟨⟩ s := by
  cases r with
  | ok u s' =>
    cases h
    rfl
  | error e s' => cases h

theorem ok_of_bind {r : EStateM.Result Fault σ PUnit} {k : σ → Option α} {b : α}
    (h : (after? r).bind k = some b) : ∃ s, r = .ok ⟨⟩ s ∧ k s = some b := by
  obtain ⟨s, hs, hk⟩ := Option.bind_eq_some_iff.mp h
  exact ⟨s, ok_of_after? hs, hk⟩

theorem ok_of_map {r : EStateM.Result Fault σ PUnit} {k : σ → α} {b : α}
    (h : (after? r).map k = some b) : ∃ s, r = .ok ⟨⟩ s ∧ k s = b := by
  obtain ⟨s, hs, hk⟩ := Option.map_eq_some_iff.mp h
  exact ⟨s, ok_of_after? hs, hk⟩

theorem Walk.onMemory_ok {x : MemM α} {w : Walk} {m : Memory}
    (h : x w.memory = .ok a m) : Walk.onMemory x w = .ok a { w with memory := m } := by
  rw [Walk.onMemory, zoom, h]

/-! ## Properties that a step keeps -/

/-- A state with the property is left in a state with the property, fault or not. -/
structure Keeps (I : σ → Prop) (x : EStateM Fault σ α) : Prop where
  ends : ∀ s, I s → Ends x s (fun _ => I) fun _ => I

namespace Keeps

variable {I : σ → Prop}

theorem pure (a : α) : Keeps I (pure a) := ⟨fun _ h => Ends.pure h⟩

theorem throw (e : Fault) : Keeps I (throw e : EStateM Fault σ α) := ⟨fun _ h => Ends.throw h⟩

theorem get : Keeps I (get : EStateM Fault σ σ) := ⟨fun _ h => Ends.get h⟩

theorem modify {f : σ → σ} (h : ∀ s, I s → I (f s)) : Keeps I (modify f) :=
  ⟨fun s hs => Ends.modify (h s hs)⟩

theorem orFault (x : Except Fault α) : Keeps I (orFault x) :=
  ⟨fun _ h => Ends.orFault (fun _ _ => h) fun _ _ => h⟩

variable {x : EStateM Fault σ α} {f : α → EStateM Fault σ β} {R : β → σ → Prop} {part : σ → τ}
variable {put : τ → σ → σ}

theorem bind (hx : Keeps I x) (hf : ∀ a, Keeps I (f a)) : Keeps I (x >>= f) :=
  ⟨fun s hs => Ends.bind ((hx.ends s hs).mono (fun a s' hs' => (hf a).ends s' hs') fun _ _ h => h)⟩

/-- A step that keeps the property, before one that is started with it. -/
theorem ends_bind {s : σ} (hx : Keeps I x) (hs : I s)
    (hf : ∀ a s', I s' → Ends (f a) s' R fun _ => I) : Ends (x >>= f) s R fun _ => I :=
  Ends.bind ((hx.ends s hs).mono hf fun _ _ h => h)

/-- A step that keeps the property, before one of which only values count. -/
theorem ends_bind_value {s : σ} (hx : Keeps I x) (hs : I s)
    (hf : ∀ a s', I s' → Ends (f a) s' R fun _ _ => True) : Ends (x >>= f) s R fun _ _ => True :=
  Ends.bind ((hx.ends s hs).mono hf fun _ _ _ => trivial)

theorem forM {f : α → EStateM Fault σ PUnit} :
    ∀ {as : List α}, (∀ a ∈ as, Keeps I (f a)) → Keeps I (as.forM f)
  | [], _ => pure _
  | a :: _, h =>
      bind (h a (List.mem_cons_self ..)) fun _ =>
        forM fun b hb => h b (List.mem_cons_of_mem a hb)

/-- A step on a part keeps what does not speak of that part. -/
theorem zoom (x : EStateM Fault τ α)
    (h : ∀ t s, I s → I (put t s)) : Keeps I (zoom part put x) := by
  constructor
  intro s hs
  exact Ends.zoom ⟨fun _ t _ => h t s hs, fun _ t _ => h t s hs⟩

/-- A step on a part keeps what it keeps of that part. -/
theorem zoom_part {x : EStateM Fault τ α} {J : τ → Prop}
    (hx : Keeps J x) (hpart : ∀ s, I s → J (part s)) (hput : ∀ t s, I s → J t → I (put t s)) :
    Keeps I (Footprint.zoom part put x) := by
  constructor
  intro s hs
  exact Ends.zoom ((hx.ends _ (hpart s hs)).mono (fun _ t ht => hput t s hs ht)
    fun _ t ht => hput t s hs ht)

end Keeps

/-! ## Steps of a loop -/

/-- In a loop over a list, the step for `x` goes from `s₁` to `s₂`. -/
inductive StepIn (f : α → EStateM Fault σ PUnit) (x : α) (s₁ s₂ : σ) : List α → σ → Prop
  | here {rest : List α} (h : f x s₁ = .ok ⟨⟩ s₂) : StepIn f x s₁ s₂ (x :: rest) s₁
  | later {y : α} {rest : List α} {s s' : σ} (h : f y s = .ok ⟨⟩ s')
      (hrest : StepIn f x s₁ s₂ rest s') : StepIn f x s₁ s₂ (y :: rest) s

section StepIn

variable {f : α → EStateM Fault σ PUnit} {P : σ → Prop} {x : α} {s₁ s₂ s : σ} {xs : List α}

theorem StepIn.run (h : StepIn f x s₁ s₂ xs s) : f x s₁ = .ok ⟨⟩ s₂ := by
  induction h with
  | here h => exact h
  | later _ _ ih => exact ih

theorem StepIn.mem (h : StepIn f x s₁ s₂ xs s) : x ∈ xs := by
  induction h with
  | here => exact List.mem_cons_self ..
  | later _ _ ih => exact List.mem_cons_of_mem _ ih

/-- What holds before a loop holds before each of its steps, if all steps keep it. -/
theorem StepIn.before (hk : ∀ y s s', P s → f y s = .ok ⟨⟩ s' → P s') {s₁ : σ}
    (h : StepIn f x s₁ s₂ xs s) (hs : P s) : P s₁ := by
  induction h with
  | here => exact hs
  | later hstep _ ih => exact ih (hk _ _ _ hs hstep)

/-- A loop that ends has a step for each member of its list. -/
theorem exists_stepIn_of_mem : ∀ {xs : List α} {s s' : σ}, x ∈ xs →
    xs.forM f s = .ok ⟨⟩ s' → ∃ s₁ s₂, StepIn f x s₁ s₂ xs s
  | y :: xs, s, s', hx, hrun => by
    obtain ⟨_, s₂, hfirst, hrest⟩ := exists_of_bind hrun
    rcases List.mem_cons.mp hx with rfl | hx
    · exact ⟨s, s₂, .here hfirst⟩
    · obtain ⟨s₃, s₄, hstep⟩ := exists_stepIn_of_mem hx hrest
      exact ⟨s₃, s₄, .later hfirst hstep⟩

/-- What a loop brings about, one of its steps brings about. -/
theorem exists_stepIn : ∀ {xs : List α} {s s' : σ}, xs.forM f s = .ok ⟨⟩ s' → ¬ P s → P s' →
    ∃ x s₁ s₂, StepIn f x s₁ s₂ xs s ∧ ¬ P s₁ ∧ P s₂
  | [], s, s', hrun, hs, hs' => by
    cases hrun
    exact absurd hs' hs
  | x :: xs, s, s', hrun, hs, hs' => by
    obtain ⟨_, s₂, hfirst, hrest⟩ := exists_of_bind hrun
    by_cases h₂ : P s₂
    · exact ⟨x, s, s₂, .here hfirst, hs, h₂⟩
    · obtain ⟨y, s₃, s₄, hstep, hbefore, hafter⟩ := exists_stepIn hrest h₂ hs'
      exact ⟨y, s₃, s₄, .later hfirst hstep, hbefore, hafter⟩

/-- What a step brings about holds after the loop, if all steps keep it. -/
theorem StepIn.holds (hk : ∀ x, Keeps P (f x)) {s' : σ}
    (h : StepIn f x s₁ s₂ xs s) (h₂ : P s₂) (hrun : xs.forM f s = .ok ⟨⟩ s') : P s' := by
  induction h with
  | @here rest hstep =>
    obtain ⟨_, _, hfirst, hrest⟩ := exists_of_bind hrun
    cases hstep.symm.trans hfirst
    exact ((Keeps.forM fun y _ => hk y).ends s₂ h₂).value _ _ hrest
  | later hstep _ ih =>
    obtain ⟨_, _, hfirst, hrest⟩ := exists_of_bind hrun
    cases hstep.symm.trans hfirst
    exact ih hrest

end StepIn

end Footprint
