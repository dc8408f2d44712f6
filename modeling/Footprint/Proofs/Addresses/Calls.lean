import Footprint.Proofs.Addresses.Entry
import Footprint.Proofs.Memory.Paths
import Footprint.Proofs.Memory.Refs

/-!
# What every call keeps, every project has

A run changes its memory by calls alone.  So a property of the empty memory that
every call keeps holds in every project that is reached.  `Closed` is such a
property.  It is taken from call to step, from step to body, and from body to
project.
-/

namespace Footprint

open Memory

namespace Memory

/-- The calls that a run makes.  What it notes at a variable leaves pointers pointers. -/
def Call.InRun : Call → Prop
  | .allocateParams _ | .growArray .. | .paramToArray .. | .collect => False
  | .note _ f => KeepsReference f
  | _ => True

/-- The calls of a run keep the property. -/
def Closed (T : TypeTable) (J : Memory → Prop) : Prop :=
  ∀ {m m' : Memory} (call : Call), call.InRun → call.Fits m → Leads (call.run T) m m' → J m → J m'

variable {T : TypeTable} {J : Memory → Prop} {m m' : Memory} {α : Type}

/-- A step whose result does not matter. -/
theorem leads_discard {x : MemM α} (h : Leads x m m') : Leads (do let _ ← x) m m' := by
  rcases h with ⟨a, h⟩ | ⟨e, hne, h⟩
  · exact .inl ⟨⟨⟩, bind_of_ok h⟩
  · exact .inr ⟨e, hne, bind_of_error h⟩

theorem Closed.resolve (hJ : Closed T J) (name : String) (hm : J m)
    (h : Leads (resolve T name) m m') : J m' :=
  hJ (.resolve name) trivial trivial (leads_discard h) hm

theorem Closed.declare (hJ : Closed T J) {v : Variable} (hv : v.parts = {}) (hm : J m) :
    J { m with vars := m.vars.push v } :=
  hJ (.declare v) trivial hv (leads_discard (.inl ⟨_, rfl⟩)) hm

theorem Closed.setVar (hJ : Closed T J) (id : VarId) {f : Variable → Variable}
    (href : KeepsReference f) (hf : ∀ v, (f v).name = v.name ∧ (f v).parts = v.parts) (hm : J m) :
    J (m.setVar id f) :=
  hJ (.note id f) href hf (.inl ⟨⟨⟩, rfl⟩) hm

/-- A read or a write changes marks only. -/
theorem keepsReference_markRead (f : String) : KeepsReference (·.markRead f) := by
  intro v hv
  unfold Variable.markRead
  dsimp only
  split
  · exact hv
  · exact hv

theorem keepsReference_markWrite (f : String) : KeepsReference (·.markWrite f) := by
  intro v hv
  unfold Variable.markWrite
  dsimp only
  split
  · exact hv
  · exact hv

theorem closed_built (hT : T.MembersApart) : Closed T Built := by
  intro m m' call hrun hf hleads hm
  refine .call hm hT hf ?_ hleads
  cases call with
  | growArray => exact hrun.elim
  | paramToArray => exact hrun.elim
  | _ => trivial

/-- The calls of a run keep what layouts keep and changes of records do. -/
theorem Laying.keeps_call (hl : Laying J) (hadd : ∀ a p, Keeps J (addRef a p))
    (hremove : ∀ a p, Keeps J (removeRef a p)) (call : Call)
    (hclear : call = .clearRefs → Keeps J clearRefs) (hrun : call.InRun) :
    Keeps J (call.run T) := by
  cases call with
  | declare v => exact .bind (hl.keeps_declare v) fun _ => .pure _
  | note id f => exact .modify fun _ hm => hl.setVar id hrun hm
  | allocateGlobals ids => exact hl.allocateGlobals ids
  | allocateLocal id => exact .bind (hl.allocateRoot id) fun _ => .pure _
  | allocateParams ids => exact hrun.elim
  | allocateFunctionParams ids =>
    exact .bind (hl.allocateFunctionParams hadd ids {}) fun _ => .pure _
  | resolve name => exact .bind (hl.resolve name) fun _ => .pure _
  | growArray => exact hrun.elim
  | paramToArray => exact hrun.elim
  | addRef a p => exact hadd a p
  | removeRef a p => exact hremove a p
  | clearRefs => exact hclear rfl
  | read a f => exact keeps_read (fun _ id hm => hl.setVar id (keepsReference_markRead f) hm) a
  | write a f => exact keeps_write (fun _ id hm => hl.setVar id (keepsReference_markWrite f) hm) a
  | collect => exact hrun.elim

theorem Laying.closed (hl : Laying J) (hadd : ∀ a p, Keeps J (addRef a p))
    (hremove : ∀ a p, Keeps J (removeRef a p)) (hclear : Keeps J clearRefs) : Closed T J := by
  intro m m' call hrun _ hleads hm
  exact ((hl.keeps_call hadd hremove call (fun _ => hclear) hrun).ends m hm).leads hleads

end Memory

namespace Walk

open Memory (Closed)

variable {s : Scope} {w w' : Walk} {J : Memory → Prop} {α : Type}

theorem leads_onMemory {x : MemM α} (h : Leads (onMemory x) w w') :
    Leads x w.memory w'.memory := by
  rcases h with ⟨a, h⟩ | ⟨e, hne, h⟩
  · rw [onMemory, zoom] at h
    split at h
    · next hx => cases h; exact .inl ⟨_, hx⟩
    · cases h
  · rw [onMemory, zoom] at h
    split at h
    · cases h
    · next hx => cases h; exact .inr ⟨_, hne, hx⟩

/-- Wherever the step leads from `w` the memory has the property. -/
def Reaches (J : Memory → Prop) (w : Walk) (x : WalkM α) : Prop :=
  Ends x w (fun _ w' => J w'.memory) fun e w' => e ≠ .endless → J w'.memory

variable {x : WalkM α} {I : Walk → Prop}

theorem Reaches.of_leads (h : ∀ w', Leads x w w' → J w'.memory) : Reaches J w x :=
  ⟨fun a w' hx => h w' (.inl ⟨a, hx⟩), fun e w' hx hne => h w' (.inr ⟨e, hne, hx⟩)⟩

theorem Reaches.leads (h : Reaches J w x) (hx : Leads x w w') : J w'.memory := by
  rcases hx with ⟨a, hx⟩ | ⟨e, hne, hx⟩
  · exact h.value a w' hx
  · exact h.fault e w' hx hne

theorem Reaches.pure {a : α} (hw : J w.memory) : Reaches J w (pure a) := Ends.pure hw

theorem Reaches.bind {β : Type} {f : α → WalkM β} (hx : Reaches J w x)
    (hf : ∀ a w', J w'.memory → Reaches J w' (f a)) : Reaches J w (x >>= f) :=
  Ends.bind (hx.mono (fun a w' hw' => hf a w' hw') fun _ _ h => h)

theorem Reaches.variableAt {a : Int} (hw : J w.memory) : Reaches J w (variableAt a) := by
  have hkeeps : Keeps J (Memory.variableAt a) := Memory.keeps_variableAt a
  exact Ends.zoom ((hkeeps.ends _ hw).mono (fun _ _ h => h) fun _ _ h _ => h)

theorem Reaches.onMemory {x : MemM α} (h : ∀ m, Leads x w.memory m → J m) :
    Reaches J w (onMemory x) :=
  .of_leads fun _ hx => h _ (leads_onMemory hx)

theorem Reaches.changeRoot {f : Function → Function} (hw : J w.memory) :
    Reaches J w (changeRoot s f) :=
  Ends.modify hw

section Steps

variable (hJ : Closed s.types J)

include hJ

theorem reaches_addressOf (name : String) (hw : J w.memory) : Reaches J w (addressOf s name) :=
  .onMemory fun _ h => hJ.resolve name hw h

theorem reaches_mark (use : Use) (a : Int) (hw : J w.memory) : Reaches J w (mark s use a) := by
  refine .bind (.variableAt hw) fun v w₁ hw₁ => ?_
  cases v with
  | none => exact .pure hw₁
  | some v =>
    dsimp only
    split
    · exact .pure hw₁
    · cases use with
      | read =>
        refine Ends.bind (Ends.get ?_)
        split
        · exact .pure hw₁
        · exact Reaches.bind (.onMemory fun _ h => hJ (.read a s.name) trivial trivial h hw₁)
            fun _ _ hw₂ => .changeRoot hw₂
      | write =>
        refine .bind (.onMemory fun _ h => hJ (.write a s.name) trivial trivial h hw₁)
          fun _ _ hw₂ => .bind (.changeRoot hw₂) fun _ _ hw₃ => Ends.modify hw₃

theorem reaches_markItself (use : Use) (a : Int) (hw : J w.memory) :
    Reaches J w (markItself s use a) := by
  refine .bind (.variableAt hw) fun v w₁ hw₁ => ?_
  cases v with
  | none => exact .pure hw₁
  | some v =>
    refine .bind (Ends.zoom (Ends.modify (hJ.setVar v.1 ?_ (fun u => ?_) hw₁))) fun _ _ hw₂ =>
      .changeRoot hw₂
    · cases use with
      | read => exact keepsReference_markRead s.name
      | write => exact keepsReference_markWrite s.name
    · cases use with
      | read => exact ⟨markRead_name s.name u, markRead_parts s.name u⟩
      | write => exact ⟨markWrite_name s.name u, markWrite_parts s.name u⟩

omit hJ in
theorem reaches_typeOf (i : NodeInfo) (hw : J w.memory) : Reaches J w (typeOf i) := by
  unfold typeOf
  split
  · exact .pure hw
  · exact Ends.throw fun _ => hw

theorem reaches_declareLocal (i : NodeInfo) (hw : J w.memory) : Reaches J w (declareLocal s i) := by
  refine .bind (reaches_addressOf hJ _ hw) fun a w₁ hw₁ => ?_
  cases a with
  | some a => exact .pure hw₁
  | none =>
    refine .bind (reaches_typeOf i hw₁) fun t w₂ hw₂ => ?_
    -- the new variable is there when it is laid out
    refine Ends.bind_ok (onMemory_ok rfl) (Reaches.bind (.onMemory fun m h => ?_) fun _ _ hw₃ =>
      .pure hw₃)
    exact hJ (.allocateLocal w₂.memory.vars.size) trivial (by simp [Call.Fits])
      (leads_discard h) (hJ.declare rfl hw₂)

/-- What calls keep, a step keeps. -/
theorem Step.closed (h : Step s w w') (hw : J w.memory) : J w'.memory := by
  cases h with
  | addressOf h => exact (reaches_addressOf hJ _ hw).leads h
  | variableAt _ h => exact (Reaches.variableAt hw).leads h
  | mark _ h => exact (reaches_mark hJ _ _ hw).leads h
  | markItself _ h => exact (reaches_markItself hJ _ _ hw).leads h
  | share h =>
    refine Reaches.leads ?_ h
    unfold Walk.share
    split
    · exact .pure hw
    · exact .changeRoot hw
  | @setTarget key target _ h =>
    have hset : Reaches J w (Walk.setTarget key target) := Ends.modify hw
    exact hset.leads h
  | @dropRef key target _ h =>
    cases target with
    | none => exact (Reaches.pure hw).leads h
    | some a => exact hJ (.removeRef a key) trivial trivial (leads_onMemory h) hw
  | @noteRef key target _ h =>
    cases target with
    | none => exact (Reaches.pure hw).leads h
    | some a => exact hJ (.addRef a key) trivial trivial (leads_onMemory h) hw
  | @remember target known _ h =>
    refine Reaches.leads ?_ h
    cases known with
    | none => exact .pure hw
    | some v =>
      unfold Walk.remember
      dsimp only
      split
      · exact Ends.zoom (Ends.modify (hJ.setVar v.1 (fun _ hv => hv) (fun _ => ⟨rfl, rfl⟩) hw))
      · exact .pure hw
  | declareLocal h => exact (reaches_declareLocal hJ _ hw).leads h
  | forgetEnds h => exact (Reaches.changeRoot hw).leads h
  | @noteEnd name target _ h =>
    refine Reaches.leads ?_ h
    refine .bind (reaches_addressOf hJ name hw) fun a w₁ hw₁ => ?_
    cases a with
    | none => exact .pure hw₁
    | some a =>
      refine .bind (.variableAt hw₁) fun v w₂ hw₂ => ?_
      cases v with
      | none => exact .pure hw₂
      | some v =>
        dsimp only
        split
        · exact .changeRoot hw₂
        · exact .pure hw₂

/-- What calls keep is kept while a body is walked. -/
theorem Steps.closed (h : Steps s w w') (hw : J w.memory) : J w'.memory := by
  induction h with
  | refl => exact hw
  | tail _ hstep ih => exact hstep.closed hJ ih

end Steps

/-- What a body leaves alone, but for the record of its function, every step leaves alone. -/
theorem Step.outer (hI : Outer s I) (h : Step s w w') (hw : I w) : I w' := by
  have hleads : ∀ {β : Type} {x : WalkM β}, Keeps I x → Leads x w w' → I w' :=
    fun hk hl => (hk.ends w hw).leads hl
  have hmoves := hI.moves s
  cases h with
  | addressOf h => exact hleads (hI.onMemory _) h
  | variableAt _ h => exact hleads (hI.onMemory _) h
  | mark _ h => exact hleads (hI.stable.mark _ _) h
  | markItself _ h => exact hleads (hI.stable.markItself _ _) h
  | share h => exact hleads (hI.stable.share _) h
  | setTarget _ h => exact hleads (hmoves.setTarget _ _) h
  | dropRef _ h => exact hleads (hmoves.dropRef _ _) h
  | noteRef _ h => exact hleads (hmoves.noteRef _ _) h
  | remember _ h => exact hleads (hmoves.remember _ _) h
  | declareLocal h => exact hleads (hI.declareLocal _) h
  | forgetEnds h => exact hleads (hI.changeRoot _) h
  | noteEnd _ h =>
    have hends := keeps_noteEnd_of hmoves.address hmoves.look fun _ => hI.changeRoot _
    exact hleads (hends _ _) h

theorem Steps.outer (hI : Outer s I) (h : Steps s w w') (hw : I w) : I w' := by
  induction h with
  | refl => exact hw
  | tail _ hstep ih => exact hstep.outer hI ih

theorem outer_record {id : Nat} (hid : id ≠ s.root) (r : Option Function) :
    Outer s fun w => w.functions[id]? = r where
  memory _ _ h := h
  pointers _ _ h := h
  written _ _ h := h
  root g w h := by simpa [Array.getElem?_modify, hid.symm] using h

end Walk

/-! ## Analysing functions -/

namespace Analysis

open Memory (Closed)

variable {T : TypeTable} {id : Nat} {a a' : Analysis} {J : Memory → Prop} {α : Type}

theorem onMemory_value {x : MemM α} {r : α} (h : onMemory x a = .ok r a') :
    x a.memory = .ok r a'.memory := by
  rw [onMemory, zoom] at h
  split at h
  · next hx =>
    cases h
    exact hx
  · cases h

theorem Enters.types {s : Scope} {w : Walk} (h : Enters T id a s w) : s.types = T := by
  obtain ⟨_⟩ := h
  rfl

theorem recalled_functions {a₁ a₂ : Analysis} (hclear : onMemory clearRefs a = .ok ⟨⟩ a₁)
    (hrecall : recallPointers T a₁.inits.entries a₁ = .ok ⟨⟩ a₂) : a₂.functions = a.functions := by
  have h₁ : SameRest a a₁ := ((keeps_onMemory _).ends a (.refl a)).value _ _ hclear
  have h₂ : SameRest a a₂ := ((keeps_recallPointers _).ends a₁ h₁).value _ _ hrecall
  rw [h₂]

/-- The first steps of an analysis. -/
theorem exists_recalled (h : analyse T id a = .ok ⟨⟩ a') :
    ∃ a₁ a₂, onMemory clearRefs a = .ok ⟨⟩ a₁ ∧
      recallPointers T a₁.inits.entries a₁ = .ok ⟨⟩ a₂ ∧
      (match a.functions[id]? with
        | none => pure ()
        | some f => analyseFunction T id f) a₂ = .ok ⟨⟩ a' := by
  obtain ⟨_, a₁, hclear, h⟩ := exists_of_bind h
  obtain ⟨_, _, hget, h⟩ := exists_of_bind h
  cases hget
  obtain ⟨_, a₂, hrecall, h⟩ := exists_of_bind h
  obtain ⟨_, _, hget, h⟩ := exists_of_bind h
  cases hget
  rw [recalled_functions hclear hrecall] at h
  exact ⟨a₁, a₂, hclear, hrecall, h⟩

theorem analyse_unknown (hf : a.functions[id]? = none) (h : analyse T id a = .ok ⟨⟩ a') :
    ∃ a₁, onMemory clearRefs a = .ok ⟨⟩ a₁ ∧
      recallPointers T a₁.inits.entries a₁ = .ok ⟨⟩ a' := by
  obtain ⟨a₁, a₂, hclear, hrecall, h⟩ := exists_recalled h
  rw [hf] at h
  cases h
  exact ⟨a₁, hclear, hrecall⟩

variable {f : Function}

/-- An analysis that comes to its end has walked the body. -/
theorem exists_enters (hf : a.functions[id]? = some f)
    (h : analyse T id a = .ok ⟨⟩ a') : ∃ s w, Enters T id a s w := by
  obtain ⟨a₁, a₂, hclear, hrecall, h⟩ := exists_recalled h
  have hf₂ : a₂.functions[id]? = some f := recalled_functions hclear hrecall ▸ hf
  rw [hf] at h
  obtain ⟨_, a₃, hscan, h⟩ := exists_of_bind h
  obtain ⟨defaults, a₄, hparams, _⟩ := exists_of_bind h
  exact ⟨_, _, hclear, hrecall, hf₂, hscan, hparams⟩

/-- What an analysis ends with is what steps lead to from the start of the body. -/
theorem Enters.steps {s : Scope} {w : Walk} (h : Enters T id a s w) (ha : a.Aimed)
    (hrun : analyse T id a = .ok ⟨⟩ a') : ∃ w', Walk.Steps s w w' ∧ LeftBy w' a' := by
  obtain ⟨f, _, _, hf, _⟩ := h.rest
  have hends := (Walk.minds_perform (s := s) a.index f).ends w ⟨h.aimed ha, .refl⟩ (.refl _)
  refine (h.ends hf (E := fun _ _ => True) (hends.mono ?_ fun _ _ _ => trivial)).value _ _ hrun
  exact fun _ w' hw' => hw'.1.steps

/-- Looking for the uses of parameters as arrays sets flags only. -/
theorem scanBody_flagging (hJ : Scan.Flagging J) (hm : J a.memory)
    (h : scanBody id f a = .ok ⟨⟩ a') : J a'.memory := by
  have hends : Ends (scanBody id f) a (fun _ a' => J a'.memory) fun _ _ => True := by
    unfold scanBody
    split
    · refine Ends.bind (Ends.get ?_)
      split
      · exact Ends.zoom (((hJ.scanFunction _ _).ends _ hm).mono (fun _ _ hm' => hm')
          fun _ _ _ => trivial)
      · exact Ends.pure hm
    · exact Ends.pure hm
  exact hends.value _ _ h

section Closed

variable (hJ : Closed T J)

include hJ

theorem initialTarget_closed (pointers : Table String (Option Int)) (init : Node) {m : Memory}
    (hm : J m) : Ends (initialTarget T pointers init) m (fun _ => J) fun _ _ => True := by
  rw [initialTarget_eq]
  split
  · exact Ends.pure hm
  · refine Ends.bind ⟨fun r m' h => Ends.pure ?_, fun _ _ _ => trivial⟩
    exact hJ.resolve _ hm (.inl ⟨r, h⟩)
  · exact Ends.pure hm

theorem recallPointers_closed : ∀ (inits : List (String × Node)) {a : Analysis}, J a.memory →
    Ends (recallPointers T inits) a (fun _ a' => J a'.memory) fun _ _ => True
  | [], _, ha => Ends.pure ha
  | (name, init) :: inits, a, ha => by
    refine Ends.bind (Ends.bind (Ends.bind (Ends.get (Ends.zoom ?_))))
    refine (initialTarget_closed hJ a.pointers init ha).mono ?_ fun _ _ _ => trivial
    intro target m hm
    cases target with
    | none => exact Ends.pure (recallPointers_closed inits hm)
    | some t =>
      refine Ends.zoom ⟨fun _ m' h => recallPointers_closed inits ?_, fun _ _ _ => trivial⟩
      exact hJ (.addRef t name) trivial trivial (.inl ⟨_, h⟩) hm

theorem scanBody_closed {f : Function} (hm : J a.memory) (h : scanBody id f a = .ok ⟨⟩ a') :
    J a'.memory :=
  scanBody_flagging
    (fun _ id _ hm => hJ.setVar id (fun _ _ => Bool.or_true _) (fun _ => ⟨rfl, rfl⟩) hm)
    hm h

/-- What calls keep is there when a body starts. -/
theorem Enters.closed {s : Scope} {w : Walk} (h : Enters T id a s w) (ha : a.Aimed)
    (hm : J a.memory) : J w.memory := by
  obtain ⟨hclear, hrecall, hf, hscan, hparams⟩ := h
  next a₁ a₂ a₃ a₄ f defaults =>
  have ha₁ := (minds_onMemory minds_clearRefs).ends a ha (.refl _) |>.value _ _ hclear
  have ha₂ := (minds_recallPointers T _).ends _ ha₁.1 (.refl _) |>.value _ _ hrecall
  have ha₃ := (minds_scanBody id _).ends _ ha₂.1 (.refl _) |>.value _ _ hscan
  have hserves := (ha₂.1.functions _ (Array.mem_of_getElem? hf)).grows ha₃.2.1
  have hm₁ : J a₁.memory := hJ .clearRefs trivial trivial (.inl ⟨_, onMemory_value hclear⟩) hm
  have hm₂ : J a₂.memory := (recallPointers_closed hJ _ hm₁).value _ _ hrecall
  have hm₃ : J a₃.memory := scanBody_closed hJ hm₂ hscan
  have hcall := leads_discard (.inl ⟨_, onMemory_value hparams⟩)
  exact hJ (.allocateFunctionParams f.vars.values) trivial (fun v hv => (hserves.params v hv).lt)
    hcall hm₃

/-- What calls keep is kept when a function is analysed. -/
theorem analyse_closed (ha : a.Aimed) (hm : J a.memory) (h : analyse T id a = .ok ⟨⟩ a') :
    J a'.memory := by
  cases hf : a.functions[id]? with
  | none =>
    obtain ⟨a₁, hclear, hrecall⟩ := analyse_unknown hf h
    have hm₁ : J a₁.memory := hJ .clearRefs trivial trivial (.inl ⟨_, onMemory_value hclear⟩) hm
    exact (recallPointers_closed hJ _ hm₁).value _ _ hrecall
  | some f =>
    obtain ⟨s, w, henters⟩ := exists_enters hf h
    obtain ⟨w', hsteps, hleft⟩ := henters.steps ha h
    have hJ : Closed s.types J := henters.types ▸ hJ
    exact hleft.memory ▸ hsteps.closed hJ (henters.closed (henters.types ▸ hJ) ha hm)

end Closed

theorem initPointers_closed (hJ : Closed T J) :
    ∀ (inits : List (String × Node)) {a : Analysis}, J a.memory →
      Ends (initPointers T inits) a (fun _ a' => J a'.memory) fun _ _ => True
  | [], _, ha => Ends.pure ha
  | (name, init) :: inits, a, ha => by
    refine Ends.bind (Ends.bind (Ends.bind (Ends.get (Ends.zoom ?_))))
    refine (initialTarget_closed hJ a.pointers init ha).mono ?_ fun _ _ _ => trivial
    intro target m hm
    cases target with
    | none => exact Ends.pure (initPointers_closed hJ inits hm)
    | some t =>
      refine Ends.bind (Ends.modify (Ends.zoom
        ⟨fun _ m' h => initPointers_closed hJ inits ?_, fun _ _ _ => trivial⟩))
      exact hJ (.addRef t name) trivial trivial (.inl ⟨_, h⟩) hm

end Analysis

/-! ## Reading a project -/

namespace Project

open Memory (Closed)

/-- The property is about the memory and the initialisers, and what is declared keeps it. -/
structure Reads (I : Project → Prop) : Prop where
  withVar : ∀ {p v}, v.parts = {} → I p → I (p.withVar v)
  noted : ∀ {p name init}, I p → I { p with inits := p.inits.set name init }
  rest : ∀ {p q}, q.analysis.memory = p.analysis.memory → q.inits = p.inits → I p → I q

variable {fs : Files} {project : String} {I : Project → Prop} {p : Project} {J : Memory → Prop}

theorem Reads.gathers (h : Reads I) : Gathers fs project I where
  rest ha _ hi _ hp := h.rest (congrArg Analysis.memory ha) hi hp
  declare hv hp := h.withVar hv.parts hp
  global {p v} _ hv _ hp := h.rest (p := p.withVar v) rfl rfl (h.withVar hv.parts hp)
  noted hp := h.noted hp
  defined _ _ p _ _ hp _ _ _ := h.rest (p := p) rfl rfl hp
  configured _ _ _ _ _ p _ _ _ hp _ _ _ _ _ := h.rest (p := p) rfl rfl hp

/-- The project with its declarations collected and its configured functions added. -/
structure Loaded (fs : Files) (project : String) (p : Project) : Prop where
  steps : ∃ p₁ p₂, collect fs project {} = .ok ⟨⟩ p₁ ∧ onTypes TypeTable.sizeAll p₁ = .ok ⟨⟩ p₂ ∧
    Config.load fs project p₂ = .ok ⟨⟩ p

theorem Loaded.reads (h : Loaded fs project p) (hI : Reads I) (hstart : I {}) : I p := by
  obtain ⟨p₁, p₂, hcollect, htypes, hload⟩ := h.steps
  have hG : Gathers fs project I := hI.gathers
  have hI₁ := (hG.collect.ends _ hstart).value _ _ hcollect
  have hI₂ := ((hG.onTypes _).ends _ hI₁).value _ _ htypes
  exact (hG.load.ends _ hI₂).value _ _ hload

theorem Loaded.aimed (h : Loaded fs project p) : p.Aimed := by
  obtain ⟨p₁, p₂, hcollect, htypes, hload⟩ := h.steps
  have haimed₁ := minds_collect.leads aimed_empty (.inl ⟨_, hcollect⟩)
  have haimed₂ := (minds_onTypes TypeTable.inBounds_sizeAll).leads haimed₁ (.inl ⟨_, htypes⟩)
  exact minds_load.leads haimed₂ (.inl ⟨_, hload⟩)

/-- Reading ends with laying out the globals and setting up the analysis. -/
theorem exists_loaded (h : prepare fs project {} = .ok ⟨⟩ p) :
    ∃ p₀ m a, Loaded fs project p₀ ∧
      allocateGlobals p₀.types p₀.globalIds p₀.analysis.memory = .ok ⟨⟩ m ∧
      Analysis.start p₀.types p₀.globalIds p₀.inits (List.range p₀.analysis.functions.size) {}
        { p₀.analysis with memory := m } = .ok ⟨⟩ a ∧
      p = { p₀ with analysis := a } := by
  obtain ⟨_, p₁, hcollect, h⟩ := exists_of_bind h
  obtain ⟨_, p₂, htypes, h⟩ := exists_of_bind h
  obtain ⟨_, p₀, hload, h⟩ := exists_of_bind h
  obtain ⟨_, _, hget, h⟩ := exists_of_bind h
  cases hget
  obtain ⟨_, p₃, hglobals, h⟩ := exists_of_bind h
  obtain ⟨_, _, hget, h⟩ := exists_of_bind h
  cases hget
  rw [onMemory, zoom] at hglobals
  split at hglobals
  · next m hm =>
    cases hglobals
    rw [onAnalysis, zoom] at h
    split at h
    · next a ha =>
      cases h
      exact ⟨p₀, m, a, ⟨p₁, p₂, hcollect, htypes, hload⟩, hm, ha, rfl⟩
    · cases h
  · cases hglobals

/-- What calls keep is kept from the declarations to the project that is read. -/
theorem start_closed (p₀ : Project) {m : Memory} {a : Analysis}
    (hJ : Closed p₀.types J) (haimed : p₀.Aimed) (hm : J p₀.analysis.memory)
    (hglobals : allocateGlobals p₀.types p₀.globalIds p₀.analysis.memory = .ok ⟨⟩ m)
    (hstart : Analysis.start p₀.types p₀.globalIds p₀.inits
      (List.range p₀.analysis.functions.size) {} { p₀.analysis with memory := m } = .ok ⟨⟩ a) :
    J a.memory := by
  have hm : J m := hJ (.allocateGlobals _) trivial haimed.globals (.inl ⟨_, hglobals⟩) hm
  obtain ⟨_, a₁, hset, hinit⟩ := exists_of_bind hstart
  obtain ⟨_, a₂, hpreset, hinit⟩ := exists_of_bind hinit
  cases hset
  cases hpreset
  exact (Analysis.initPointers_closed hJ _ hm).value _ _ hinit

theorem reads_memory (hJ : ∀ {m v}, v.parts = {} → J m →
    J { m with vars := m.vars.push v }) : Reads fun p => J p.analysis.memory where
  withVar hv hp := hJ hv hp
  noted hp := hp
  rest hm _ hp := hm ▸ hp

/-- Analysing a function leaves all but the analysis and the list of what has been done. -/
theorem analyse_value {p' : Project} {id : Nat} (h : analyse id p = .ok ⟨⟩ p') :
    Analysis.analyse p.types id p.analysis = .ok ⟨⟩ p'.analysis ∧ p'.types = p.types := by
  obtain ⟨_, _, hget, h⟩ := exists_of_bind h
  cases hget
  obtain ⟨_, p₁, ha, h⟩ := exists_of_bind h
  rw [onAnalysis, zoom] at ha
  split at ha
  · next a ha' =>
    cases ha
    cases h
    dsimp only
    split
    · exact ⟨ha', rfl⟩
    · exact ⟨ha', rfl⟩
  · cases ha

/-- What calls keep holds of the memory of every project that is reached. -/
theorem Reached.closed {path : String}
    (h : Reached fs path p) (hJ : Closed p.types J) (hempty : J {}) : J p.analysis.memory := by
  induction h with
  | read h =>
    obtain ⟨p₀, m, a, hread, hglobals, hstart, rfl⟩ := exists_loaded h
    have hm : J p₀.analysis.memory := hread.reads (reads_memory hJ.declare) hempty
    exact start_closed p₀ hJ hread.aimed hm hglobals hstart
  | @analysed p p' id hp ha ih =>
    obtain ⟨hrun, htypes⟩ := analyse_value ha
    have hJ : Closed p.types J := htypes ▸ hJ
    exact Analysis.analyse_closed hJ hp.aimed.analysis (ih hJ) hrun

variable {fs : Files} {path : String} {p : Project}

theorem Reached.built (h : Reached fs path p) (hT : p.types.MembersApart) :
    p.analysis.memory.Built :=
  h.closed (closed_built hT) .empty

end Project

end Footprint
