import Footprint.Proofs.Memory.Framed
import Footprint.Proofs.Schedule

/-!
# What the analysis of a function leaves as it was

In every state that a run leads to, the analysis of a function leaves the blocks,
the variables and the records of the other functions as they were, and adds no
mark but its own.

The walk keeps `Framed` because each of its steps does.  What `Framed` asks of
the memory at the start holds in every state of a run (`Ready`): reading the
project lays out nothing but global variables, so that no parameter has a block
before its function is analysed, and the analysis of one function lays out no
parameter of another.
-/

namespace Footprint

open Memory Analysis

/-! ## The walk -/

namespace Walk

/-- The memory is framed for the walked function, and functions keep their signatures. -/
abbrev Inside (s : Scope) (params : VarId → Prop) (m₀ : Memory) (signatures : Array Function) :
    Walk → Prop :=
  Within (Framed s.name params m₀) (fun _ => True) signatures

section Inside

variable {s : Scope} {params : VarId → Prop} {m₀ : Memory} {signatures : Array Function}

theorem inside_looks : Looks s (Inside s params m₀ signatures) :=
  looks_of_steady (Framed.steady s.name params m₀)

theorem inside_moves : Moves s (Inside s params m₀ signatures) where
  address := inside_looks.address
  look := inside_looks.look
  addRef a key := keeps_onMemory ((Framed.steady s.name params m₀).addRef a key)
  removeRef a key := keeps_onMemory ((Framed.steady s.name params m₀).removeRef a key)
  target _ _ := keeps_onMemory (keeps_change fun _ hm =>
    hm.setVar _ fun _ => ⟨rfl, rfl, rfl, rfl, fun ha => ha, .of_eq rfl rfl⟩)
  setTarget _ _ := .modify fun _ hw => ⟨hw.memory, trivial, hw.functions⟩

/-- The name of a local is one of the walked function. -/
theorem inside_declareLocal (i : NodeInfo) :
    Keeps (Inside s params m₀ signatures) (declareLocal s i) := by
  refine .bind (inside_looks.address _) fun a => ?_
  cases a with
  | some a => exact .pure _
  | none =>
    refine .bind (keeps_typeOf i) fun t => ⟨fun w hw => Ends.bind_ok rfl (Ends.bind ?_)⟩
    refine Ends.zoom (((hw.memory.declare ⟨rfl, rfl, rfl⟩).allocateRoot_ends s.types ?_ (by simp)
      ?_).mono ?_ ?_)
    · rw [varOf_push, if_pos rfl]
      exact movableRoot_owned i.spelling
    · exact fun hp => absurd (Nat.lt_of_lt_of_le (hw.memory.declared _ hp) hw.memory.vars)
        (Nat.lt_irrefl _)
    · exact fun _ m' hm' => Ends.pure ⟨hm'.1, trivial, hw.functions⟩
    · exact fun _ m' hm' => ⟨hm', trivial, hw.functions⟩

theorem inside_stable : Stable s (Inside s params m₀ signatures) where
  toLooks := inside_looks
  repoint := inside_moves.repoint
  forget key := inside_moves.setTarget key none
  declare := inside_declareLocal

theorem inside_perform (calls : CallIndex) (f : Function) :
    Keeps (Inside s params m₀ signatures) (perform calls s f) :=
  inside_moves.perform (fun _ => keeps_changeRoot fun _ => rfl) fun _ _ => inside_stable.walkBody _

end Inside

end Walk

/-! ## The analysis of one function -/

namespace Analysis

/-- The variable is that of a parameter. -/
def IsParam (functions : Array Function) (id : VarId) : Prop :=
  ∃ f ∈ functions, id ∈ f.vars.values

/-- No parameter without an address has a block, and parameters have names of their functions. -/
structure Ready (a : Analysis) : Prop where
  next : 0 < a.memory.next
  placed : ∀ i b, a.memory.block? i = some b → b.var < a.memory.vars.size
  declared : ∀ id, IsParam a.functions id → id < a.memory.vars.size
  owned : ∀ f ∈ a.functions, ∀ id ∈ f.vars.values,
    ∃ rest, (a.memory.varOf id).name = ownerStart f.name.plain ++ rest
  unlaid : ∀ id, IsParam a.functions id → (a.memory.varOf id).address = 0 →
    ∀ i b, a.memory.block? i = some b → b.var ≠ id

variable {a : Analysis} {f : String}

theorem Ready.framed (h : Ready a) (f : String) :
    Framed f (IsParam a.functions) a.memory a.memory :=
  .refl h.next h.declared h.placed h.unlaid

/-- The memory of `a'` is framed, and the functions are those of `a` but for what was found out. -/
structure Leaves (f : String) (a a' : Analysis) : Prop where
  memory : Framed f (IsParam a.functions) a.memory a'.memory
  functions : a'.functions.map Function.signature = a.functions.map Function.signature

/-- A function of either has a namesake in the other, with the same parameters. -/
theorem exists_of_signature {known known' : Array Function}
    (h : known'.map Function.signature = known.map Function.signature) {f : Function}
    (hf : f ∈ known') : ∃ g ∈ known, g.name = f.name ∧ g.vars = f.vars := by
  have hs : f.signature ∈ known.map Function.signature := h ▸ Array.mem_map.mpr ⟨f, hf, rfl⟩
  obtain ⟨g, hg, he⟩ := Array.mem_map.mp hs
  have hname : g.signature.name = f.signature.name := congrArg Function.name he
  have hvars : g.signature.vars = f.signature.vars := congrArg Function.vars he
  exact ⟨g, hg, hname, hvars⟩

theorem Ready.of_framed {m₀ : Memory}
    (h : Framed f (IsParam a.functions) m₀ a.memory)
    (howned : ∀ g ∈ a.functions, ∀ id ∈ g.vars.values,
      ∃ rest, (m₀.varOf id).name = ownerStart g.name.plain ++ rest) : Ready a where
  next := h.next
  placed := h.placed
  declared id hid := Nat.lt_of_lt_of_le (h.declared id hid) h.vars
  owned g hg id hid := by
    rw [h.name id (h.declared id ⟨g, hg, hid⟩)]
    exact howned g hg id hid
  unlaid := h.unlaid

/-- After the analysis of a function the next one can be analysed. -/
theorem Ready.leaves {a' : Analysis} (h : Ready a) (hl : Leaves f a a') : Ready a' := by
  refine .of_framed (hl.memory.weaken ?_) ?_
  · rintro id ⟨g, hg, hid⟩
    obtain ⟨g', hg', _, hvars⟩ := exists_of_signature hl.functions hg
    exact ⟨g', hg', hvars ▸ hid⟩
  · intro g hg id hid
    obtain ⟨g', hg', hname, hvars⟩ := exists_of_signature hl.functions hg
    exact hname ▸ h.owned g' hg' id (hvars ▸ hid)

section Analyse

variable {f : String} {params : VarId → Prop} {m₀ : Memory} {known : Array Function}

/-- The memory is framed and the functions are untouched. -/
structure Before (f : String) (params : VarId → Prop) (m₀ : Memory) (known : Array Function)
    (a : Analysis) : Prop where
  memory : Framed f params m₀ a.memory
  functions : a.functions = known

theorem before_onMemory {α : Type} {x : MemM α} (hx : Keeps (Framed f params m₀) x) :
    Keeps (Before f params m₀ known) (onMemory x) :=
  hx.zoom_part (fun _ ha => ha.memory) fun _ _ ha hm => ⟨hm, ha.functions⟩

theorem before_initTarget (T : TypeTable) (init : Node) :
    Keeps (Before f params m₀ known) (initTarget T init) :=
  .bind .get fun _ =>
    before_onMemory ((Framed.steady f params m₀).initialTarget T _ init)

theorem before_addRef (i : Int) (name : String) :
    Keeps (Before f params m₀ known) (onMemory (addRef i name)) :=
  before_onMemory ((Framed.steady f params m₀).addRef i name)

theorem before_recallPointers (T : TypeTable) :
    ∀ inits : List (String × Node), Keeps (Before f params m₀ known) (recallPointers T inits)
  | [] => .pure _
  | (name, init) :: rest => by
    refine .bind (.bind (before_initTarget T init) fun a => ?_) fun _ =>
      before_recallPointers T rest
    cases a with
    | none => exact .pure _
    | some a => exact before_addRef a name

theorem before_preset (name : String) (i : Int) :
    Keeps (Before f params m₀ known) (preset name i) :=
  .bind (.modify fun _ ha => ⟨ha.memory, ha.functions⟩) fun _ => before_addRef i name

theorem before_presetPointers :
    ∀ presets : List (String × Int), Keeps (Before f params m₀ known) (presetPointers presets)
  | [] => .pure _
  | (name, i) :: rest => .bind (before_preset name i) fun _ => before_presetPointers rest

theorem before_initPointers (T : TypeTable) :
    ∀ inits : List (String × Node), Keeps (Before f params m₀ known) (initPointers T inits)
  | [] => .pure _
  | (name, init) :: rest => by
    refine .bind (.bind (before_initTarget T init) fun a => ?_) fun _ => before_initPointers T rest
    cases a with
    | none => exact .pure _
    | some a => exact before_preset name a

theorem before_start (T : TypeTable) (globals : List VarId) (inits : Table String Node)
    (ids : List Nat) (presets : Table String Int) :
    Keeps (Before f params m₀ known) (start T globals inits ids presets) :=
  .bind (.modify fun _ ha => ⟨ha.memory, ha.functions⟩) fun _ =>
    .bind (before_presetPointers _) fun _ => before_initPointers T _

theorem before_scanBody (id : Nat) (g : Function) :
    Keeps (Before f params m₀ known) (scanBody id g) := by
  unfold scanBody
  split
  · refine .bind .get fun a => ?_
    split
    · exact before_onMemory ((Framed.flagging f params m₀).scanFunction _ _)
    · exact .pure _
  · exact .pure _

variable {a : Analysis}

/-- A step in a body, as a step between functions. -/
theorem inBody_ends {α : Type} {pointers : Table String (Option Int)} {x : WalkM α}
    {Q : α → Analysis → Prop} {E : Fault → Analysis → Prop}
    (h : Ends x { memory := a.memory, functions := a.functions, pointers }
      (fun r w => Q r { a with memory := w.memory, functions := w.functions })
      fun e w => E e { a with memory := w.memory, functions := w.functions }) :
    Ends (inBody pointers x) a Q E := by
  cases hx : x { memory := a.memory, functions := a.functions, pointers } with
  | ok r w => exact .of_ok (by rw [inBody, hx]) (h.value r w hx)
  | error e w => exact .of_error (by rw [inBody, hx]) (h.fault e w hx)

theorem analyseFunction_ends (T : TypeTable) (id : Nat) {g : Function}
    (ha : Before g.name.plain params m₀ known a)
    (howned : ∀ v ∈ g.vars.values, Owned g.name.plain params m₀ v) :
    Ends (analyseFunction T id g) a
      (fun _ a' => Framed g.name.plain params m₀ a'.memory ∧
        a'.functions.map Function.signature = known.map Function.signature) fun _ _ => True := by
  refine (before_scanBody id g).ends_bind_value ha fun _ a₁ ha₁ => ?_
  refine Ends.bind (Ends.zoom ?_)
  refine (ha₁.memory.allocateFunctionParams_ends T g.vars.values {} howned).mono ?_
    fun _ _ _ => trivial
  intro noted m hm
  have hperform : Keeps (Walk.Inside { types := T, root := id, name := g.name.plain } params m₀
      (known.map Function.signature)) _ := Walk.inside_perform a₁.index g
  have hfunctions := congrArg (Array.map Function.signature) ha₁.functions
  refine Ends.bind (Ends.get (inBody_ends ?_))
  exact (hperform.ends _ ⟨hm, trivial, hfunctions⟩).mono
    (fun _ w hw => ⟨hw.memory, hw.functions⟩) fun _ _ _ => trivial

end Analyse

/-- The analysis of a function leaves alone what is not its own. -/
theorem analyse_ends (h : Ready a) (T : TypeTable) {id : Nat} {name : String}
    (hname : ∀ f, a.functions[id]? = some f → f.name.plain = name) :
    Ends (analyse T id) a (fun _ a' => Leaves name a a') fun _ _ => True := by
  have hsteady := Framed.steady name (IsParam a.functions) a.memory
  have hstart : Before name (IsParam a.functions) a.memory a.functions a := ⟨h.framed name, rfl⟩
  refine (before_onMemory hsteady.clearRefs).ends_bind_value hstart fun _ a₁ ha₁ => ?_
  refine Ends.bind (Ends.get ?_)
  refine (before_recallPointers T a₁.inits.entries).ends_bind_value ha₁ fun _ a₂ ha₂ => ?_
  refine Ends.bind (Ends.get ?_)
  rw [ha₂.functions]
  cases hf : a.functions[id]? with
  | none =>
    exact Ends.pure ⟨ha₂.memory, congrArg (Array.map Function.signature) ha₂.functions⟩
  | some f =>
    have hmem : f ∈ a.functions := Array.mem_of_getElem? hf
    obtain rfl := hname f hf
    exact (analyseFunction_ends T id ha₂ fun v hv => ⟨⟨f, hmem, hv⟩, h.owned f hmem v hv⟩).mono
      (fun _ a' ha' => ⟨ha'.1, ha'.2⟩) fun _ _ _ => trivial

end Analysis

/-! ## Reading a project -/

namespace Project

/-- Global variables and parameters are declared, and nothing is laid out. -/
structure Declared (p : Project) : Prop where
  next : 0 < p.analysis.memory.next
  blocks : ∀ a, p.analysis.memory.block? a = none
  names : ∀ n, p.analysis.memory.address? n = none
  params : ∀ f ∈ p.analysis.functions, ∀ id ∈ f.vars.values,
    ParamOf f.name.plain p.analysis.memory id
  globals : ∀ id ∈ p.globalIds, id < p.analysis.memory.vars.size ∧
    (p.analysis.memory.varOf id).domain = .global
  unused : ∀ id f, ¬ (p.analysis.memory.varOf id).UsedBy f

section Declared

variable {fs : Files} {project : String} {p : Project}

/-- What is declared depends on the memory, the functions and the globals alone. -/
theorem Declared.congr {q : Project} (h : Declared p) (hm : q.analysis.memory = p.analysis.memory)
    (hf : q.analysis.functions = p.analysis.functions) (hg : q.globals = p.globals) : Declared q :=
    by
  constructor
  · rw [hm]; exact h.next
  · rw [hm]; exact h.blocks
  · rw [hm]; exact h.names
  · rw [hm, hf]; exact h.params
  · rw [hm, globalIds, hg]; exact h.globals
  · rw [hm]; exact h.unused

theorem Declared.withVar (h : Declared p) {v : Variable} (hv : v.Blank) :
    Declared (p.withVar v) where
  next := h.next
  blocks := h.blocks
  names := h.names
  params f hf id hid := (h.params f hf id hid).push v
  globals id hid := by
    obtain ⟨hlt, hd⟩ := h.globals id hid
    refine ⟨Nat.lt_of_lt_of_le hlt (by simp [Project.withVar]), ?_⟩
    show (varOf { p.analysis.memory with vars := p.analysis.memory.vars.push v } id).domain
      = .global
    rw [varOf_push, if_neg (Nat.ne_of_lt hlt)]
    exact hd
  unused id f := by
    show ¬ (varOf { p.analysis.memory with vars := p.analysis.memory.vars.push v } id).UsedBy f
    rw [varOf_push]
    split
    · exact hv.not_usedBy f
    · exact h.unused id f

theorem Declared.withFunction {p₀ : Project} (h : Declared p) {f : Function}
    (hf : Declares f.name.plain p₀ p f.vars) : Declared (p.withFunction f) := by
  refine ⟨h.next, h.blocks, h.names, fun g hg => ?_, h.globals, h.unused⟩
  cases Array.mem_push.mp hg with
  | inl hg => exact h.params g hg
  | inr he => exact he ▸ hf.param

theorem plain_of_ofJson? {j : Json} {label : Label} (h : Label.ofJson? j = some label) :
    label.plain = j.plain := by
  cases j with
  | null => cases h
  | bool b => cases h; rfl
  | int i => cases h; rfl
  | real d => cases h; rfl
  | str s => cases h; rfl
  | arr items => cases h
  | obj fields => cases h

theorem declared_gathers : Gathers fs project Declared where
  rest ha hg _ _ hp :=
    hp.congr (congrArg Analysis.memory ha) (congrArg Analysis.functions ha) hg
  declare hv hp := hp.withVar hv
  global {p v} name hv hd hp := by
    have hw := hp.withVar hv
    refine ⟨hw.next, hw.blocks, hw.names, hw.params, fun id hid => ?_, hw.unused⟩
    rcases Table.mem_values_set hid with rfl | hid
    · refine ⟨by simp [withVar], ?_⟩
      show (varOf { p.analysis.memory with vars := _ } _).domain = .global
      rw [varOf_push, if_pos rfl, hd]
    · exact hw.globals id hid
  noted hp := hp.congr rfl rfl rfl
  defined _ _ _ _ _ hp hv _ _ := hp.withFunction hv
  configured _ _ _ hl _ _ _ _ _ hp hv _ _ _ _ := hp.withFunction (plain_of_ofJson? hl ▸ hv)

end Declared

/-- Where no name has an address, variables that are no parameters may be laid out. -/
theorem allocateGlobals_ends (T : TypeTable) {f : String} {params : VarId → Prop} {m₀ : Memory}
    (hnames : ∀ n, m₀.address? n = none) :
    ∀ (ids : List VarId) {m : Memory}, Framed f params m₀ m →
      (∀ id ∈ ids, id < m₀.vars.size ∧ ¬ params id) →
      Ends (allocateGlobals T ids) m (fun _ => Framed f params m₀) fun _ _ => True
  | [], _, hm, _ => Ends.pure hm
  | id :: ids, m, hm, hids => by
    obtain ⟨hlt, hfree⟩ := hids id (List.mem_cons_self ..)
    have hmovable : ∀ n, Movable f m₀ n := fun n => .inr (.inl (hnames n))
    refine Ends.bind ((hm.allocateRoot_ends T ⟨hmovable _, fun _ => hmovable _⟩
      (Nat.lt_of_lt_of_le hlt hm.vars) hfree).mono ?_ fun _ _ _ => trivial)
    rintro _ m' ⟨hm', _⟩
    exact allocateGlobals_ends T hnames ids hm' fun j hj => hids j (List.mem_cons_of_mem id hj)

variable {p : Project} {fs : Files}

/-- Before anything is laid out the memory is framed. -/
theorem Declared.framed (h : Declared p) (f : String) :
    Framed f (IsParam p.analysis.functions) p.analysis.memory p.analysis.memory := by
  refine .refl h.next ?_ (fun a b hb => ?_) fun _ _ _ a b hb => ?_
  · rintro id ⟨f, hf, hid⟩
    exact (h.params f hf id hid).lt
  · rw [h.blocks a] at hb
    cases hb
  · rw [h.blocks a] at hb
    cases hb

theorem Declared.not_isParam (h : Declared p) {id : VarId} (hid : id ∈ p.globalIds) :
    ¬ IsParam p.analysis.functions id := by
  rintro ⟨f, hf, hv⟩
  have hd := (h.params f hf id hv).domain
  rw [(h.globals id hid).2] at hd
  cases hd

/-- Reading a project lays out variables that it has declared. -/
theorem prepare_framed (fs : Files) (project f : String) :
    Ends (prepare fs project) {} (fun _ p => ∃ p₀, Declared p₀ ∧
      p.analysis.functions = p₀.analysis.functions ∧
      Framed f (IsParam p.analysis.functions) p₀.analysis.memory
        p.analysis.memory) fun _ _ => True := by
  have hstart : Declared {} :=
    ⟨by decide, fun a => by cases a <;> rfl, fun _ => rfl, fun _ h => by simp at h,
      (fun _ h => nomatch h),
      fun _ f => Variable.Blank.not_usedBy ⟨rfl, rfl, rfl⟩ f⟩
  unfold prepare
  have hgathers : Gathers fs project Declared := declared_gathers
  refine hgathers.collect.ends_bind_value hstart fun _ p hp => ?_
  refine (hgathers.onTypes _).ends_bind_value hp fun _ p hp => ?_
  refine hgathers.load.ends_bind_value hp fun _ p hp => ?_
  refine Ends.bind (Ends.get (Ends.bind (Ends.zoom ?_)))
  refine (allocateGlobals_ends p.types hp.names p.globalIds (hp.framed f) fun id hid =>
    ⟨(hp.globals id hid).1, hp.not_isParam hid⟩).mono ?_ fun _ _ _ => trivial
  intro _ m hm
  refine Ends.bind (Ends.get (Ends.zoom ?_))
  refine ((before_start _ _ _ _ _).ends _ ⟨hm, rfl⟩).mono ?_ fun _ _ _ => trivial
  intro _ a ha
  have hfunctions : a.functions = p.analysis.functions := ha.functions
  exact ⟨p, hp, hfunctions, hfunctions.symm ▸ ha.memory⟩

/-- When a project has been read, its functions can be analysed. -/
theorem prepare_ready (fs : Files) (project : String) :
    Ends (prepare fs project) {} (fun _ p => p.analysis.Ready) fun _ _ => True := by
  refine (prepare_framed fs project "").mono ?_ fun _ _ _ => trivial
  rintro _ p ⟨p₀, hp₀, hfunctions, hframed⟩
  refine .of_framed hframed fun g hg id hid => ?_
  rw [hfunctions] at hg
  exact (hp₀.params g hg id hid).name

/-- Reading a project marks nothing. -/
theorem prepare_unused {project : String} (h : prepare fs project {} = .ok ⟨⟩ p) (id : VarId)
    (f : String) : ¬ (p.analysis.memory.varOf id).UsedBy f := by
  -- the marks are at most those of any function that one likes, so choose another one
  obtain ⟨p₀, hp₀, _, hframed⟩ := (prepare_framed fs project (f ++ "'")).value _ _ h
  have hne : f ≠ f ++ "'" := by
    intro he
    have hlength := congrArg String.length he
    simp [String.length_append] at hlength
  have hmarks := hframed.marks id
  rintro (hr | hw)
  · exact hp₀.unused id f (.inl ((hmarks.readers f hne).mp hr))
  · exact hp₀.unused id f (.inr ((hmarks.writers f hne).mp hw))

/-! ## Runs -/

/-- The projects that a run leads to: what is read, and what analysing functions makes of it. -/
inductive Reached (fs : Files) (path : String) : Project → Prop
  | read {p : Project} (h : prepare fs (fs.absolute path) {} = .ok ⟨⟩ p) : Reached fs path p
  | analysed {p p' : Project} {id : Nat} (h : Reached fs path p)
      (ha : analyse id p = .ok ⟨⟩ p') : Reached fs path p'

theorem analyse_leaves {p' : Project} {id : Nat} {name : String} (h : p.analysis.Ready)
    (hname : ∀ f, p.record? id = some f → f.name.plain = name)
    (ha : analyse id p = .ok ⟨⟩ p') : Leaves name p.analysis p'.analysis := by
  have hends : Ends (analyse id) p (fun _ p' => Leaves name p.analysis p'.analysis)
      fun _ _ => True := by
    refine Ends.bind (Ends.get (Ends.bind (Ends.zoom ?_)))
    refine (analyse_ends h p.types hname).mono (fun _ a hl => ?_) fun _ _ _ => trivial
    refine Ends.modify ?_
    split
    · exact hl
    · exact hl
  exact hends.value _ _ ha

theorem Reached.ready {path : String} (h : Reached fs path p) : p.analysis.Ready := by
  induction h with
  | read h => exact (prepare_ready fs (fs.absolute path)).value _ _ h
  | @analysed p p' id _ ha ih =>
    have hname : ∃ name, ∀ f, p.record? id = some f → f.name.plain = name := by
      cases p.record? id with
      | none => exact ⟨"", fun _ hf => nomatch hf⟩
      | some f => exact ⟨f.name.plain, fun g hg => by cases hg; rfl⟩
    obtain ⟨name, hname⟩ := hname
    exact ih.leaves (analyse_leaves ih hname ha)

end Project

end Footprint
