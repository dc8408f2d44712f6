import Footprint.Proofs.Addresses.Run

/-!
# From a project to a body and back

Before a body is walked only the memory changes, so the walk starts with the
functions, the calls and the global pointers of the project.  What the analysis
of a function ends with is what the walk over its body ends with.
-/

namespace Footprint

namespace Analysis

/-- Nothing but the memory has changed. -/
def SameRest (a a' : Analysis) : Prop := a' = { a with memory := a'.memory }

variable {T : TypeTable} {id : Nat} {a a' a'' : Analysis}

theorem SameRest.refl (a : Analysis) : SameRest a a := rfl

theorem keeps_onMemory {α : Type} (x : MemM α) : Keeps (SameRest a) (onMemory x) := by
  constructor
  intro a' h
  rw [SameRest] at h
  refine Ends.zoom ?_
  cases hx : x a'.memory with
  | ok r m => exact .of_ok hx (by rw [SameRest, h])
  | error e m => exact .of_error hx (by rw [SameRest, h])

theorem keeps_recallPointers : ∀ inits : List (String × Node),
    Keeps (SameRest a) (recallPointers T inits)
  | [] => .pure _
  | (name, init) :: rest => by
    refine .bind (.bind (.bind .get fun _ => keeps_onMemory _) fun target => ?_) fun _ =>
      keeps_recallPointers rest
    cases target with
    | none => exact .pure _
    | some t => exact keeps_onMemory _

theorem keeps_scanBody (f : Function) : Keeps (SameRest a) (scanBody id f) := by
  unfold scanBody
  split
  · refine .bind .get fun a' => ?_
    split
    · exact keeps_onMemory _
    · exact .pure _
  · exact .pure _

variable {s : Scope} {w : Walk}

/-- A body is walked with what the project has, but for the memory. -/
theorem Enters.rest (h : Enters T id a s w) :
    ∃ f a₄ defaults, a.functions[id]? = some f ∧ SameRest a a₄ ∧
      s = { types := T, root := id, name := f.name.plain } ∧ w = a₄.bodyStart defaults ∧
      analyse T id a = inBody (startPointers a.pointers defaults) (perform a.index s f) a₄ := by
  obtain ⟨hclear, hrecall, hf, hscan, hparams⟩ := h
  next a₁ a₂ a₃ a₄ f defaults =>
  have h₁ : SameRest a a₁ := ((keeps_onMemory _).ends a (.refl a)).value _ _ hclear
  have h₂ : SameRest a a₂ := ((keeps_recallPointers _).ends a₁ h₁).value _ _ hrecall
  have h₃ : SameRest a a₃ := ((keeps_scanBody f).ends a₂ h₂).value _ _ hscan
  have h₄ : SameRest a a₄ := ((keeps_onMemory _).ends a₃ h₃).value _ _ hparams
  have hfunctions : a₂.functions = a.functions := by rw [h₂]
  have hpointers : a₄.pointers = a.pointers := by rw [h₄]
  have hindex : a₄.index = a.index := by rw [h₄]
  refine ⟨f, a₄, defaults, hfunctions ▸ hf, h₄, rfl, rfl, ?_⟩
  have hanalyse : analyse T id a = analyseFunction T id f a₂ := by
    refine (bind_of_ok hclear).trans ((bind_of_ok rfl).trans ((bind_of_ok hrecall).trans
      ((bind_of_ok rfl).trans ?_)))
    rw [hf]
  rw [hanalyse, ← hpointers, ← hindex]
  exact (bind_of_ok hscan).trans ((bind_of_ok hparams).trans (bind_of_ok rfl))

/-- The start of a body, computed. -/
def enter? (T : TypeTable) (id : Nat) (a : Analysis) : Option (Scope × Walk) :=
  (after? (onMemory Memory.clearRefs a)).bind fun a₁ =>
    (after? (recallPointers T a₁.inits.entries a₁)).bind fun a₂ =>
      a₂.functions[id]?.bind fun f =>
        (after? (scanBody id f a₂)).bind fun a₃ =>
          match onMemory (Memory.allocateFunctionParams T {} f.vars.values) a₃ with
          | .ok defaults a₄ =>
            some ({ types := T, root := id, name := f.name.plain }, a₄.bodyStart defaults)
          | .error .. => none

theorem enters_of_enter? (h : enter? T id a = some (s, w)) : Enters T id a s w := by
  obtain ⟨a₁, hclear, h⟩ := ok_of_bind h
  obtain ⟨a₂, hrecall, h⟩ := ok_of_bind h
  obtain ⟨f, hf, h⟩ := Option.bind_eq_some_iff.mp h
  obtain ⟨a₃, hscan, h⟩ := ok_of_bind h
  split at h
  · next defaults a₄ hparams =>
    cases h
    exact ⟨hclear, hrecall, hf, hscan, hparams⟩
  · cases h

/-- The states agree in what outlives a body. -/
structure LeftBy (w : Walk) (a : Analysis) : Prop where
  memory : a.memory = w.memory
  functions : a.functions = w.functions

/-- What the analysis of a function ends with. -/
theorem Enters.ends (h : Enters T id a s w) {f : Function} (hf : a.functions[id]? = some f)
    {Q : Walk → Prop} {E : Fault → Walk → Prop}
    (hends : Ends (perform a.index s f) w (fun _ => Q) E) :
    Ends (analyse T id) a (fun _ a' => ∃ w', Q w' ∧ LeftBy w' a') fun e a' => ∃ w', E e w' ∧
      LeftBy w' a' := by
  obtain ⟨f', a₄, defaults, hf', hrest, _, rfl, hanalyse⟩ := h.rest
  cases hf.symm.trans hf'
  have hpointers : a₄.pointers = a.pointers := by rw [hrest]
  have hbody : Ends (inBody (startPointers a.pointers defaults) (perform a.index s f)) a₄
      (fun _ a' => ∃ w', Q w' ∧ LeftBy w' a') fun e a' => ∃ w', E e w' ∧ LeftBy w' a' := by
    rw [← hpointers]
    exact inBody_ends (hends.mono (fun _ w' hq => ⟨w', hq, rfl, rfl⟩)
      fun _ w' he => ⟨w', he, rfl, rfl⟩)
  exact ⟨fun r a' hr => hbody.value r a' (hanalyse ▸ hr), fun e a' he =>
    hbody.fault e a' (hanalyse ▸ he)⟩

end Analysis

namespace Project

variable {fs : Files} {path : String} {p : Project} {id : Nat}

theorem Reached.aimed (h : Reached fs path p) : p.Aimed := by
  induction h with
  | read h => exact minds_prepare.leads aimed_empty (.inl ⟨_, h⟩)
  | analysed _ ha ih => exact (minds_analyse _).leads ih (.inl ⟨_, ha⟩)

/-- What the analysis of a function leads to, if its body is walked. -/
theorem leads_of_enters {s : Scope} {w : Walk} {f : Function} {p' : Project}
    (h : Analysis.Enters p.types id p.analysis s w) (hf : p.record? id = some f)
    {Q : Walk → Prop} (hends : Ends (Analysis.perform p.analysis.index s f) w (fun _ => Q)
      fun e w' => e ≠ .endless → Q w') (hleads : Leads (analyse id) p p') :
    ∃ w', Q w' ∧ Analysis.LeftBy w' p'.analysis := by
  have hanalyse : Ends (analyse id) p (fun _ p' => ∃ w', Q w' ∧ Analysis.LeftBy w' p'.analysis)
      fun e p' => ∃ w', (e ≠ .endless → Q w') ∧ Analysis.LeftBy w' p'.analysis := by
    refine Ends.bind (Ends.get (Ends.bind (Ends.zoom ?_)))
    refine (h.ends hf hends).mono (fun _ a hleft => Ends.modify ?_) fun _ _ hleft => hleft
    dsimp only
    split
    · exact hleft
    · exact hleft
  rcases hleads with ⟨r, hr⟩ | ⟨e, hne, he⟩
  · exact hanalyse.value r p' hr
  · obtain ⟨w', hq, hleft⟩ := hanalyse.fault e p' he
    exact ⟨w', hq hne, hleft⟩

end Project

end Footprint
