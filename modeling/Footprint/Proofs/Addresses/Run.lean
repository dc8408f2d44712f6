import Footprint.Proofs.Addresses.Body
import Footprint.Proofs.Frame

/-!
# No address goes astray in a run

A run reads the declarations, lays out the global variables, and analyses one
function after the other.  Between functions, and in a body from one step to the
next, every address that is held is that of a block.  No run stops since it
asks for a block, a position or an owner that is not there.
-/

namespace Footprint

open Config

open Memory (Grows OwnsTarget ownsTarget_none)

/-! ## Analysing functions -/

namespace Analysis

/-- Every address that is held between functions is that of a block. -/
structure Aimed (a : Analysis) : Prop where
  memory : a.memory.Aimed
  pointers : a.memory.OwnsTargets a.pointers
  functions : ∀ f ∈ a.functions, a.memory.Serves f

/-- A step between functions that minds its addresses. -/
abbrev MindsIn {α : Type} (m₀ : Memory) (V : α → Memory → Prop) (x : AnalysisM α) : Prop :=
  Minds Aimed memory m₀ V x

/-- The result says nothing about addresses. -/
abbrev MindsAny {α : Type} (m₀ : Memory) (x : AnalysisM α) : Prop := MindsIn m₀ (fun _ _ => True) x

section Steps

variable {m₀ : Memory} (T : TypeTable)

theorem minds_onMemory {α : Type} {V : α → Memory → Prop} {x : MemM α}
    (hx : Memory.MindsIn m₀ V x) : MindsIn m₀ V (onMemory x) :=
  hx.zoom (fun _ => rfl) (fun _ ha => ha.memory)
    (fun _ _ ha hm hg => ⟨hm, ha.pointers.grows hg, fun f hf => (ha.functions f hf).grows hg⟩)
    fun _ _ => rfl

theorem minds_pure {α : Type} (a : α) : MindsAny m₀ (pure a) := .pure fun _ _ => trivial

theorem minds_preset (name : String) {a : Int} (h : m₀.Owns a) : MindsAny m₀ (preset name a) :=
  .bind (.modify (fun _ hs hg => ⟨hs.memory, hs.pointers.set (h.grows hg).target name,
    hs.functions⟩) fun _ => rfl) fun _ _ hg _ =>
      minds_onMemory (Memory.minds_addRef (h.grows hg) name)

theorem minds_initTarget (init : Node) :
    MindsIn m₀ (fun target m => m.OwnsTarget target) (initTarget T init) :=
  .get_bind fun _ hs _ => minds_onMemory (Memory.minds_initialTarget T hs.pointers init)

theorem minds_initPointer (name : String) (init : Node) :
    MindsAny m₀ (initPointer T name init) := by
  refine .bind (minds_initTarget T init) fun target _ _ ht => ?_
  cases target with
  | none => exact minds_pure _
  | some a => exact minds_preset name (ht a rfl)

theorem minds_initPointers : ∀ {m₀ : Memory} (inits : List (String × Node)),
    MindsAny m₀ (initPointers T inits)
  | _, [] => minds_pure _
  | _, (name, init) :: rest =>
      .bind (minds_initPointer T name init) fun _ _ _ _ => minds_initPointers rest

theorem minds_recallPointer (name : String) (init : Node) :
    MindsAny m₀ (recallPointer T name init) := by
  refine .bind (minds_initTarget T init) fun target _ _ ht => ?_
  cases target with
  | none => exact minds_pure _
  | some a => exact minds_onMemory (Memory.minds_addRef (ht a rfl) name)

theorem minds_recallPointers : ∀ {m₀ : Memory} (inits : List (String × Node)),
    MindsAny m₀ (recallPointers T inits)
  | _, [] => minds_pure _
  | _, (name, init) :: rest =>
      .bind (minds_recallPointer T name init) fun _ _ _ _ => minds_recallPointers rest

variable {m : Memory}

/-- At the start the global pointers have no targets. -/
theorem ownsTargets_start (f : VarId → Variable) (globals : List VarId) :
    ∀ t : Table String (Option Int), m.OwnsTargets t →
      m.OwnsTargets (globals.foldl
        (fun t id => if (f id).isPointer then t.set (f id).name none else t) t) := by
  induction globals with
  | nil => exact fun _ ht => ht
  | cons id globals ih =>
    intro t ht
    refine ih _ ?_
    dsimp only
    split
    · exact ht.set ownsTarget_none _
    · exact ht

theorem minds_start (globals : List VarId) (inits : Table String Node) (functions : List Nat) :
    MindsAny m₀ (start T globals inits functions {}) := by
  refine .bind (.modify (fun s hs _ => ?_) fun _ => rfl) fun _ _ _ _ =>
    .bind (minds_pure _) fun _ _ _ _ => minds_initPointers T _
  exact ⟨hs.memory, ownsTargets_start s.memory.varOf globals {} (fun _ he => nomatch he),
    hs.functions⟩

theorem minds_scanBody (id : Nat) (f : Function) : MindsAny m₀ (scanBody id f) := by
  unfold scanBody
  split
  · refine .get_bind fun s hs _ => ?_
    split
    · next g hg =>
      refine minds_onMemory (Scan.minds_scanFunction _ fun v hv => ?_)
      obtain ⟨hlt, rest, hname⟩ := (hs.functions g (Array.mem_of_getElem? hg)).params v hv
      have hmem : '>' ∈ (s.memory.varOf v).name.toList := by simp [hname, ownerStart]
      exact ⟨hlt, Option.isSome_iff_exists.mp (Text.isSome_after? rfl hmem)⟩
    · exact minds_pure _
  · exact minds_pure _

/-- The pointer parameters point to blocks when a body starts. -/
theorem ownsTargets_startPointers {pointers : Table String (Option Int)}
    {defaults : Table String Nat} (hp : m.OwnsTargets pointers) (hd : m.OwnsNoted defaults) :
    m.OwnsTargets (startPointers pointers defaults) := by
  obtain ⟨entries⟩ := defaults
  unfold startPointers
  dsimp only
  induction entries generalizing pointers with
  | nil => exact hp
  | cons e entries ih =>
    refine ih (hp.set ?_ _) fun e' he' => hd e' (List.mem_cons_of_mem e he')
    exact (hd e (List.mem_cons_self ..)).target

end Steps

/-! ## Bodies -/

/-- The state in which the body of a function starts. -/
def bodyStart (a : Analysis) (defaults : Table String Nat) : Walk :=
  { memory := a.memory, functions := a.functions, pointers := startPointers a.pointers defaults }

/-- The analysis of a function reaches its body.  The pointers to blocks have been forgotten but for
those of the initialisers, the uses as arrays noted, and the parameters laid out. -/
inductive Enters (T : TypeTable) (id : Nat) (a : Analysis) : Scope → Walk → Prop
  | mk {a₁ a₂ a₃ a₄ : Analysis} {f : Function} {defaults : Table String Nat}
      (hclear : onMemory Memory.clearRefs a = .ok ⟨⟩ a₁)
      (hrecall : recallPointers T a₁.inits.entries a₁ = .ok ⟨⟩ a₂)
      (hf : a₂.functions[id]? = some f) (hscan : scanBody id f a₂ = .ok ⟨⟩ a₃)
      (hparams : onMemory (Memory.allocateFunctionParams T {} f.vars.values) a₃ =
        .ok defaults a₄) :
      Enters T id a { types := T, root := id, name := f.name.plain } (a₄.bodyStart defaults)

section Bodies

variable {T : TypeTable} {id : Nat} {a : Analysis} {m₀ : Memory} {defaults : Table String Nat}

theorem minds_params {f : Function} (hf : m₀.Serves f) :
    MindsIn m₀ (fun defaults m => m.OwnsNoted defaults)
      (onMemory (Memory.allocateFunctionParams T {} f.vars.values)) :=
  minds_onMemory (Memory.minds_allocateFunctionParams T (fun _ he => nomatch he)
    fun v hv => (hf.params v hv).lt)

theorem aimed_bodyStart (ha : a.Aimed)
    (hd : a.memory.OwnsNoted defaults) : (a.bodyStart defaults).Aimed :=
  ⟨ha.memory, ownsTargets_startPointers ha.pointers hd, ha.functions⟩

/-- The walk over a body is a row of steps. -/
theorem mindsAt_body (ha : a.Aimed) (hd : a.memory.OwnsNoted defaults) (s : Scope) (f : Function) :
    MindsAt Aimed memory a (fun _ _ => True)
      (inBody (startPointers a.pointers defaults) (perform a.index s f)) := by
  have hw := aimed_bodyStart ha hd
  have hends := (Walk.minds_perform (s := s) a.index f).ends _ ⟨hw, .refl⟩ (.refl a.memory)
  have hback {w : Walk} (hwalk : w.Aimed) (hg : Grows a.memory w.memory) :
      Aimed { a with memory := w.memory, functions := w.functions } :=
    ⟨hwalk.memory, ha.pointers.grows hg, hwalk.functions⟩
  refine inBody_ends (hends.mono ?_ ?_)
  · rintro _ w ⟨hpassed, hg, _⟩
    exact ⟨hback hpassed.aimed hg, hg, trivial⟩
  · rintro e w ⟨hin, hrest⟩
    exact ⟨hin, fun hne => ⟨hback (hrest hne).1.aimed (hrest hne).2, (hrest hne).2⟩⟩

theorem minds_analyse (T : TypeTable) (id : Nat) : MindsAny m₀ (analyse T id) := by
  refine .bind (minds_onMemory Memory.minds_clearRefs) fun _ _ _ _ => ?_
  refine .get_bind fun a₁ _ _ => .bind (minds_recallPointers T _) fun _ _ _ _ => ?_
  refine .get_bind fun a₂ ha₂ _ => ?_
  split
  · exact minds_pure _
  · next f hf =>
    refine .bind (minds_scanBody id f) fun _ _ hg₃ _ => ?_
    have hserves := (ha₂.functions f (Array.mem_of_getElem? hf)).grows hg₃
    refine .bind (minds_params hserves) fun defaults m hg₄ hd => ⟨fun a₄ ha₄ hg => ?_⟩
    exact MindsAt.bind_ok rfl (.refl _) (mindsAt_body ha₄ (hd.grows hg) _ f)

/-- A body starts with all that is held at blocks. -/
theorem Enters.aimed {s : Scope} {w : Walk} (h : Enters T id a s w) (ha : a.Aimed) : w.Aimed := by
  obtain ⟨hclear, hrecall, hf, hscan, hparams⟩ := h
  have h₁ := (minds_onMemory Memory.minds_clearRefs).ends a ha (.refl _) |>.value _ _ hclear
  have h₂ := (minds_recallPointers T _).ends _ h₁.1 (.refl _) |>.value _ _ hrecall
  have h₃ := (minds_scanBody id _).ends _ h₂.1 (.refl _) |>.value _ _ hscan
  have hserves := (h₂.1.functions _ (Array.mem_of_getElem? hf)).grows h₃.2.1
  have h₄ := (minds_params hserves).ends _ h₃.1 (.refl _) |>.value _ _ hparams
  exact aimed_bodyStart h₄.1 h₄.2.2

end Bodies

end Analysis

/-! ## Sizes of types -/

namespace TypeTable

/-- A step on the types does not stop since something is not there. -/
def InBounds {α : Type} (x : TypeM α) : Prop :=
  ∀ T, Ends x T (fun _ _ => True) fun e _ => ¬ e.OutOfBounds

variable {α : Type}

theorem InBounds.bind {β : Type} {x : TypeM α} {f : α → TypeM β} (hx : InBounds x)
    (hf : ∀ a, InBounds (f a)) : InBounds (x >>= f) :=
  fun T => Ends.bind ((hx T).mono (fun a T' _ => hf a T') fun _ _ he => he)

theorem InBounds.pure (a : α) : InBounds (pure a) := fun _ => Ends.pure trivial

theorem InBounds.get : InBounds (get : TypeM TypeTable) := fun _ => Ends.get trivial

theorem InBounds.modify (f : TypeTable → TypeTable) : InBounds (modify f) :=
  fun _ => Ends.modify trivial

theorem InBounds.throw {e : Fault} (he : ¬ e.OutOfBounds) :
    InBounds (throw e : TypeM α) := fun _ => Ends.throw he

theorem InBounds.addMembers {sizeOf : String → TypeM Nat} (h : ∀ t, InBounds (sizeOf t))
    (name : String) : ∀ ts, InBounds (addMembers sizeOf name ts)
  | [] => .pure _
  | t :: ts => .bind (h t) fun _ => .bind (.modify _) fun _ => .addMembers h name ts

/-- Sizes are found without addresses. -/
theorem inBounds_sizeWithin : ∀ (bound : Nat) (t : String), InBounds (sizeWithin bound t)
  | 0, _ => .throw id
  | bound + 1, t => by
    have hmembers := InBounds.addMembers (inBounds_sizeWithin bound)
    refine .bind .get fun T => ?_
    dsimp only
    split
    · exact .pure _
    · split
      · exact .bind (fun _ => Ends.orFault (fun _ _ => trivial)
          fun _ h => (Memory.arrayLength_fault h).2) fun _ =>
            .bind (inBounds_sizeWithin bound _) fun _ => .pure _
      · split
        · exact inBounds_sizeWithin bound _
        · split
          · exact .throw id
          · split
            · exact .bind (inBounds_sizeWithin bound _) fun _ => .bind (.modify _) fun _ => .pure _
            · split
              · split
                · exact .pure _
                · exact .throw id
              · refine .bind (.modify _) fun _ => ?_
                split
                · exact .throw id
                · exact .bind (.modify _) fun _ => .bind (hmembers _ _) fun _ =>
                    .bind .get fun _ => .bind (.modify _) fun _ => .pure _

theorem inBounds_sizeEach : ∀ names, InBounds (sizeEach names)
  | [] => .pure _
  | name :: names => by
    refine .bind .get fun T => ?_
    dsimp only
    split
    · exact .bind (.bind .get fun _ => inBounds_sizeWithin _ name) fun _ => inBounds_sizeEach names
    · exact inBounds_sizeEach names

theorem inBounds_sizeAll : InBounds sizeAll := .bind .get fun _ => inBounds_sizeEach _

end TypeTable

/-! ## Reading a project -/

namespace Project

/-- Every address that is held between functions is that of a block, and the globals are
declared. -/
structure Aimed (p : Project) : Prop where
  analysis : p.analysis.Aimed
  globals : ∀ id ∈ p.globalIds, id < p.analysis.memory.vars.size

/-- A step of a run that minds its addresses. -/
abbrev MindsIn {α : Type} (m₀ : Memory) (V : α → Memory → Prop) (x : ProjectM α) : Prop :=
  Minds Aimed (fun p => p.analysis.memory) m₀ V x

/-- The result says nothing about addresses. -/
abbrev MindsAny {α : Type} (m₀ : Memory) (x : ProjectM α) : Prop := MindsIn m₀ (fun _ _ => True) x

section Steps

variable {m₀ : Memory} {fs : Files} {project function : String} {α : Type}
variable {vars : Table String VarId} {V : α → Memory → Prop}

theorem minds_onAnalysis {x : AnalysisM α}
    (hx : Analysis.MindsIn m₀ V x) : MindsIn m₀ V (onAnalysis x) :=
  hx.zoom (fun _ => rfl) (fun _ hp => hp.analysis)
    (fun _ _ hp ha hg => ⟨ha, fun id hid => Nat.lt_of_lt_of_le (hp.globals id hid) hg.vars⟩)
    fun _ _ => rfl

theorem minds_onMemory {x : MemM α} (hx : Memory.MindsIn m₀ V x) : MindsIn m₀ V (onMemory x) :=
  hx.zoom (fun _ => rfl) (fun _ hp => hp.analysis.memory)
    (fun _ _ hp hm hg => ⟨⟨hm, hp.analysis.pointers.grows hg,
      fun f hf => (hp.analysis.functions f hf).grows hg⟩,
      fun id hid => Nat.lt_of_lt_of_le (hp.globals id hid) hg.vars⟩) fun _ _ => rfl

theorem minds_onTypes {x : TypeM α} (hx : TypeTable.InBounds x) : MindsAny m₀ (onTypes x) := by
  refine ⟨fun p hp _ => Ends.zoom ((hx p.types).mono ?_ ?_)⟩
  · exact fun _ _ _ => ⟨⟨hp.analysis, hp.globals⟩, .refl _, trivial⟩
  · exact fun _ _ he => ⟨he, fun _ => ⟨⟨hp.analysis, hp.globals⟩, .refl _⟩⟩

theorem minds_pure (a : α) : MindsAny m₀ (pure a) := .pure fun _ _ => trivial

theorem minds_modify {f : Project → Project} (ha : ∀ p, (f p).analysis = p.analysis)
    (hg : ∀ p, (f p).globals = p.globals) : MindsAny m₀ (modify f) :=
  .modify (fun p hp _ => ⟨by rw [ha]; exact hp.analysis,
    by rw [ha, globalIds, hg]; exact hp.globals⟩) fun p => by rw [ha]

theorem minds_declareGlobal (name : String) (t : NodeType) :
    MindsAny m₀ (declareGlobal name t) := by
  refine .get_bind fun p _ _ => ?_
  split
  · exact minds_pure _
  · refine .bind (minds_onMemory (Memory.minds_declare rfl rfl)) fun id m _ hid => ?_
    refine .modify (fun p hp hg => ⟨hp.analysis, fun j hj => ?_⟩) fun _ => rfl
    rcases Table.mem_values_set hj with rfl | hj
    · exact Nat.lt_of_lt_of_le hid.1 hg.vars
    · exact hp.globals j hj

theorem minds_declaredType (n : Node) : MindsAny m₀ (declaredType n) := by
  unfold declaredType
  split
  · exact minds_pure _
  · exact .throw id

theorem minds_addGlobal (n : Node) : MindsAny m₀ (addGlobal n) := by
  unfold addGlobal
  split
  · exact minds_pure _
  · refine .bind (minds_declaredType n) fun t _ _ _ =>
      .bind (minds_declareGlobal _ t) fun _ _ _ _ => ?_
    split
    · unfold noteInit
      split
      · exact minds_modify (fun _ => rfl) fun _ => rfl
      · exact minds_pure _
    · exact minds_pure _

/-- The variables of a table belong to a function. -/
def BelongEach (m : Memory) (function : String) (vars : Table String VarId) : Prop :=
  ∀ id ∈ vars.values, m.Belongs function id

theorem BelongEach.grows {m m' : Memory}
    (h : BelongEach m function vars) (hg : Grows m m') : BelongEach m' function vars :=
  fun id hid => (h id hid).grows hg

/-- One more parameter is declared. -/
theorem BelongEach.declare {rest : String}
    (h : BelongEach m₀ function vars) {v : Variable} (hn : v.name = ownerStart function ++ rest)
    (hparts : v.parts = {}) (htarget : v.target = none) :
    MindsIn m₀ (fun id m => BelongEach m function (vars.set v.name id))
      (onMemory (Memory.declare v)) := by
  refine (minds_onMemory (Memory.minds_declare hparts htarget)).mono fun id m hg hid j hj => ?_
  rcases Table.mem_values_set hj with rfl | hj
  · exact ⟨hid.1, rest, by rw [hid.2]; exact hn⟩
  · exact (h j hj).grows hg

theorem minds_declareParams (function : String) :
    ∀ {m₀ : Memory} (ns : List Node) (params : List Label) {vars : Table String VarId},
      BelongEach m₀ function vars →
      MindsIn m₀ (fun r m => BelongEach m function r.2) (declareParams function params vars ns)
  | _, [], _, _, h => .pure fun _ hg => h.grows hg
  | _, n :: ns, params, vars, h => by
    unfold declareParams
    split
    · refine .bind (minds_declaredType n) fun t _ hg _ => ?_
      exact .bind ((h.grows hg).declare rfl rfl rfl) fun _ _ _ hvars =>
        minds_declareParams function ns _ hvars
    · exact minds_declareParams function ns params h

theorem minds_addFunction {f : Function} (hf : m₀.Serves f) : MindsAny m₀ (addFunction f) := by
  refine .modify (fun p hp hg => ⟨⟨hp.analysis.memory, hp.analysis.pointers, fun g hmem => ?_⟩,
    hp.globals⟩) fun _ => rfl
  rcases Array.mem_push.mp hmem with hmem | rfl
  · exact hp.analysis.functions g hmem
  · exact hf.grows hg

theorem minds_addDefinition (n : Node) : MindsAny m₀ (addDefinition fs project n) := by
  refine .get_bind fun p _ _ => ?_
  dsimp only
  split
  · exact minds_pure _
  · refine .bind (minds_modify (fun _ => rfl) fun _ => rfl) fun _ _ _ _ => ?_
    refine .bind (minds_declareParams n.spelling n.children [] fun _ h => nomatch h) ?_
    rintro ⟨params, vars⟩ _ _ hvars
    exact minds_addFunction ⟨(fun _ he => nomatch he), hvars⟩

theorem minds_addType (n : Node) : MindsAny m₀ (addType fs n) := by
  refine .get_bind fun p _ _ => ?_
  split
  · exact minds_pure _
  · exact minds_modify (fun _ => rfl) fun _ => rfl

theorem minds_addDeclaration (n : Node) : MindsAny m₀ (addDeclaration fs project n) := by
  unfold addDeclaration
  split
  · exact minds_pure _
  · split
    · exact minds_addGlobal n
    · split
      · exact minds_addDefinition n
      · exact minds_pure _
    · exact minds_addType n
    · exact minds_addType n
    · exact minds_addType n
    · exact minds_modify (fun _ => rfl) fun _ => rfl
    · exact minds_pure _

theorem minds_collect : MindsAny m₀ (collect fs project) :=
  .forM fun _ _ => .forM fun n _ => minds_addDeclaration n

/-! ## Configured functions -/

theorem namedArguments_inBounds : ∀ {js : List Json} {e : Fault},
    namedArguments js = .error e → ¬ e.OutOfBounds
  | [], _, h => by cases h
  | j :: js, e, h => by
    unfold namedArguments at h
    split at h
    · exact namedArguments_inBounds h
    · split at h
      · cases h
        exact id
      · cases hrest : namedArguments js with
        | ok args => rw [hrest] at h; cases h
        | error e' => rw [hrest] at h; cases h; exact namedArguments_inBounds hrest

theorem typedArguments_inBounds : ∀ {args : List (Label × Json × Json)} {e : Fault},
    typedArguments args = .error e → ¬ e.OutOfBounds
  | [], _, h => by cases h
  | (name, type, j) :: args, e, h => by
    unfold typedArguments at h
    split at h
    · cases hrest : typedArguments args with
      | ok args => rw [hrest] at h; cases h
      | error e' => rw [hrest] at h; cases h; exact typedArguments_inBounds hrest
    · cases h
      exact id

theorem pointerInits_inBounds {T : TypeTable} {types : ArgumentTypes} :
    ∀ {js : List Json} {e : Fault}, pointerInits T types function js = .error e →
      ¬ e.OutOfBounds
  | [], _, h => by cases h
  | j :: js, e, h => by
    unfold pointerInits at h
    cases hfirst : pointerInit T types function j with
    | error e' =>
      rw [hfirst] at h
      cases h
      unfold pointerInit at hfirst
      dsimp only at hfirst
      split at hfirst
      · cases hfirst
      · split at hfirst
        · cases hfirst
          exact id
        · cases hfirst
    | ok first =>
      rw [hfirst] at h
      cases hrest : pointerInits T types function js with
      | ok rest => rw [hrest] at h; cases h
      | error e' => rw [hrest] at h; cases h; exact pointerInits_inBounds hrest

theorem minds_declareArguments (T : TypeTable) (function : String) :
    ∀ {m₀ : Memory} (args : List Argument) {vars : Table String VarId},
      BelongEach m₀ function vars →
      MindsIn m₀ (fun vars m => BelongEach m function vars)
        (declareArguments T function vars args)
  | _, [], _, h => .pure fun _ hg => h.grows hg
  | _, _ :: args, _, h => .bind (h.declare rfl rfl rfl) fun _ _ _ hvars =>
      minds_declareArguments T function args hvars

theorem minds_addEntry (file : String) (j : Json) : MindsAny m₀ (addEntry file j) := by
  refine .get_bind fun p _ _ => ?_
  dsimp only
  split
  · exact minds_pure _
  · next args _ =>
    split
    · exact minds_pure _
    · have hargs : ∀ e, (namedArguments args >>= typedArguments) = .error e →
          ¬ e.OutOfBounds := by
        intro e he
        cases hnamed : namedArguments args with
        | error e' => rw [hnamed] at he; cases he; exact namedArguments_inBounds hnamed
        | ok named => rw [hnamed] at he; exact typedArguments_inBounds he
      refine .bind (V := fun _ _ => True) (.orFault (fun _ _ _ _ => trivial) hargs)
        fun args _ _ _ => ?_
      refine .bind (minds_declareArguments _ _ args fun _ h => nomatch h) fun vars _ _ hvars => ?_
      refine .bind (V := fun _ _ => True) (.orFault (fun _ _ _ _ => trivial) fun e he => ?_)
        fun configured _ hg _ => ?_
      · unfold pointerInits? at he
        split at he
        · exact pointerInits_inBounds he
        · cases he
      · split
        · exact .throw id
        · next label hlabel =>
          have hbelong := plain_of_ofJson? hlabel ▸ hvars.grows hg
          exact .bind (minds_addFunction ⟨(fun _ he => nomatch he), hbelong⟩) fun _ _ _ _ =>
            minds_modify (fun _ => rfl) fun _ => rfl

theorem minds_load : MindsAny m₀ (load fs project) :=
  .forM fun file _ => .forM fun j _ => minds_addEntry file.1 j

/-! ## Whole runs -/

/-- Reading a project minds its addresses. -/
theorem minds_prepare : MindsAny m₀ (prepare fs project) := by
  refine .bind minds_collect fun _ _ _ _ => ?_
  refine .bind (minds_onTypes TypeTable.inBounds_sizeAll) fun _ _ _ _ => ?_
  refine .bind minds_load fun _ _ _ _ => .get_bind fun p hp _ => ?_
  exact .bind (minds_onMemory (Memory.minds_allocateGlobals _ hp.globals)) fun _ _ _ _ =>
    .get_bind fun _ _ _ => minds_onAnalysis (Analysis.minds_start _ _ _ _)

theorem minds_schedule (entry : Option String) : MindsAny m₀ (schedule fs project entry) := by
  refine .get_bind fun p _ _ => ?_
  split
  · refine .bind (V := fun _ _ => True) (.orFault (fun _ _ _ _ => trivial) fun e he => ?_)
      fun _ _ _ _ => minds_pure _
    unfold order at he
    dsimp only at he
    split at he
    · cases he
    · cases he
      exact id
  · exact minds_pure _

theorem minds_analyse (id : Nat) : MindsAny m₀ (analyse id) := by
  refine .get_bind fun p _ _ => .bind (minds_onAnalysis (Analysis.minds_analyse _ id))
    fun _ _ _ _ => minds_modify (fun p => ?_) fun p => ?_
  all_goals split <;> rfl

/-- So does a whole run. -/
theorem minds_run (path : String) (entry : Option String) : MindsAny m₀ (run fs path entry) :=
  .bind minds_prepare fun _ _ _ _ => .bind (minds_schedule entry) fun _ _ _ _ =>
    .bind (.forM fun id _ => minds_analyse id) fun _ _ _ _ =>
      minds_onAnalysis (Analysis.minds_onMemory Memory.minds_collect)

end Steps

theorem aimed_empty : Aimed {} :=
  ⟨⟨Memory.aimed_empty, (fun _ he => nomatch he), fun _ hf => by simp at hf⟩,
    fun _ hid => nomatch hid⟩

end Project

end Footprint
