import Footprint.Project.Run
import Footprint.Proofs.Memory.Steady

/-!
# What reading a project adds

While a project is read, variables are declared and functions are added, and
nothing else happens that a proof would have to follow.  The variables of the
parameters of a function are declared right before the function is added, so
they are new (`Declares`).

`Collects` and `Gathers` list what a property of projects has to be kept by.
It is then kept while the declarations are collected and while the configured
functions are loaded.  `OfFunctions` is the case of a property that does not
speak of variables at all.
-/

namespace Footprint

open Config

theorem Table.mem_values_set {κ ν : Type} [DecidableEq κ] {t : Table κ ν} {k : κ} {v w : ν}
    (h : w ∈ (t.set k v).values) : w = v ∨ w ∈ t.values := by
  obtain ⟨entries⟩ := t
  induction entries with
  | nil => exact .inl (by simpa [set, put, values] using h)
  | cons e rest ih =>
    obtain ⟨k', v'⟩ := e
    by_cases he : k' = k
    · simp only [set, put, values, he, if_true, List.map_cons, List.mem_cons] at h ⊢
      exact h.imp_right .inr
    · simp only [set, put, values, he, if_false, List.map_cons, List.mem_cons] at h ih ⊢
      rcases h with h | h
      · exact .inr (.inl h)
      · exact (ih h).imp_right .inr

namespace Project

/-- The project with one more variable. -/
def withVar (p : Project) (v : Variable) : Project :=
  { p with analysis := { p.analysis with
      memory := { p.analysis.memory with vars := p.analysis.memory.vars.push v } } }

theorem onMemory_declare (p : Project) (v : Variable) :
    onMemory (Memory.declare v) p = .ok p.analysis.memory.vars.size (p.withVar v) := rfl

/-- The project with one more function. -/
def withFunction (p : Project) (f : Function) : Project :=
  { p with analysis := { p.analysis with functions := p.analysis.functions.push f } }

theorem addFunction_ok (p : Project) (f : Function) :
    addFunction f p = .ok ⟨⟩ (p.withFunction f) := rfl

/-! ## The variables of parameters -/

/-- The variable is declared as that of a parameter of the function. -/
structure ParamOf (function : String) (m : Memory) (id : VarId) : Prop where
  lt : id < m.vars.size
  domain : (m.varOf id).domain = .param
  name : ∃ rest, (m.varOf id).name = ownerStart function ++ rest

variable {function rest project : String} {m : Memory} {v : Variable} {fs : Files}
variable {I : Project → Prop}

theorem ParamOf.push {id : VarId} (h : ParamOf function m id)
    (v : Variable) : ParamOf function { m with vars := m.vars.push v } id := by
  refine ⟨Nat.lt_of_lt_of_le h.lt (by simp), ?_, ?_⟩
  all_goals rw [Memory.varOf_push, if_neg (Nat.ne_of_lt h.lt)]
  · exact h.domain
  · exact h.name

theorem paramOf_size (hd : v.domain = .param) (hn : v.name = ownerStart function ++ rest) :
    ParamOf function { m with vars := m.vars.push v } m.vars.size := by
  refine ⟨by simp, ?_, ?_⟩
  all_goals rw [Memory.varOf_push, if_pos rfl]
  · exact hd
  · exact ⟨rest, hn⟩

/-- Since `p₀` variables of parameters of a function have been declared, and no function was
added. -/
structure Declares (function : String) (p₀ p : Project) (vars : Table String VarId) : Prop where
  functions : p.analysis.functions = p₀.analysis.functions
  size : p₀.analysis.memory.vars.size ≤ p.analysis.memory.vars.size
  fresh : ∀ id ∈ vars.values, p₀.analysis.memory.vars.size ≤ id
  param : ∀ id ∈ vars.values, ParamOf function p.analysis.memory id

theorem Declares.start (function : String) (p : Project) : Declares function p p {} :=
  ⟨rfl, Nat.le_refl _, fun _ h => (by cases h), fun _ h => by cases h⟩

/-- One more variable of a parameter is declared. -/
theorem Declares.withVar {p₀ p : Project} {vars : Table String VarId}
    (h : Declares function p₀ p vars) (hd : v.domain = .param)
    (hn : v.name = ownerStart function ++ rest) :
    Declares function p₀ (p.withVar v) (vars.set v.name p.analysis.memory.vars.size) where
  functions := h.functions
  size := Nat.le_trans h.size (by simp [Project.withVar])
  fresh id hid := by
    rcases Table.mem_values_set hid with rfl | hid
    · exact h.size
    · exact h.fresh id hid
  param id hid := by
    rcases Table.mem_values_set hid with rfl | hid
    · exact paramOf_size hd hn
    · exact (h.param id hid).push v

/-! ## Reading a project -/

/-- The property is kept when variables are declared, initialisers noted and defined functions
added, and it speaks of nothing else that reading changes. -/
structure Collects (fs : Files) (project : String) (I : Project → Prop) : Prop where
  rest : ∀ {p q : Project}, q.analysis = p.analysis → q.globals = p.globals → q.inits = p.inits →
    q.trace = p.trace → I p → I q
  declare : ∀ {p v}, v.Blank → I p → I (p.withVar v)
  global : ∀ {p v} name, v.Blank → v.domain = .global → I p →
    I { p.withVar v with globals := p.globals.set name p.analysis.memory.vars.size }
  noted : ∀ {p name init}, I p → I { p with inits := p.inits.set name init }
  defined : ∀ {n : Node}, n ∈ definitions fs project → ∀ {p₀ p vars}, I p₀ → I p →
    Declares n.spelling p₀ p vars → ∀ source params, I (p.withFunction
      { name := .text n.spelling, source, params, vars, body := some n })

/-- The property is kept when a function is configured under a name that was not known. -/
def Admits (name : Json) (I : Project → Prop) : Prop :=
  ∀ {label : Label}, name.truthy → Label.ofJson? name = some label → ∀ {p₀ p vars},
    p₀.knows label.key = false → I p₀ → I p → Declares name.plain p₀ p vars →
      ∀ T source args configured, I (p.withFunction
        { name := label, source, params := args.map Argument.name, vars,
          reads := flagged T name.plain Argument.reads args,
          writes := flagged T name.plain Argument.writes args, configured })

/-- The property is kept when configured functions are added, too. -/
structure Gathers (fs : Files) (project : String) (I : Project → Prop) : Prop
    extends Collects fs project I where
  configured : ∀ name : Json, Admits name I

section Collects

variable {fs : Files} {project : String} {I : Project → Prop}

theorem keeps_declaredType (n : Node) : Keeps I (declaredType n) := by
  unfold declaredType
  split
  · exact .pure _
  · exact .throw _

variable (h : Collects fs project I)

include h

theorem Collects.modify {f : Project → Project} (ha : ∀ p, (f p).analysis = p.analysis)
    (hg : ∀ p, (f p).globals = p.globals) (hi : ∀ p, (f p).inits = p.inits)
    (ht : ∀ p, (f p).trace = p.trace) : Keeps I (modify f) :=
  .modify fun p hp => h.rest (ha p) (hg p) (hi p) (ht p) hp

theorem Collects.onTypes {α : Type} (x : TypeM α) : Keeps I (onTypes x) :=
  .zoom x fun _ p hp => h.rest (p := p) rfl rfl rfl rfl hp

theorem Collects.addGlobal (n : Node) : Keeps I (addGlobal n) := by
  unfold Project.addGlobal
  split
  · exact .pure _
  · refine .bind (keeps_declaredType n) fun t => .bind ⟨fun p hp => ?_⟩ fun _ => ?_
    · refine Ends.bind (Ends.get ?_)
      split
      · exact Ends.pure hp
      · exact Ends.bind_ok (onMemory_declare p _) (Ends.modify (h.global _ ⟨rfl, rfl, rfl⟩ rfl hp))
    · split
      · unfold noteInit
        split
        · exact .modify fun _ hp => h.noted hp
        · exact .pure _
      · exact .pure _

variable {function : String} {p₀ : Project}

theorem Collects.declareParams :
    ∀ (ns : List Node) (params : List Label) {vars : Table String VarId} {p : Project}, I p →
      Declares function p₀ p vars → Ends (declareParams function params vars ns) p
        (fun r q => I q ∧ Declares function p₀ q r.2) fun _ => I
  | [], _, _, _, hp, hv => Ends.pure ⟨hp, hv⟩
  | n :: ns, params, vars, p, hp, hv => by
    unfold Project.declareParams
    split
    · unfold declaredType
      split
      · refine Ends.bind_ok rfl (Ends.bind_ok (onMemory_declare p _) ?_)
        exact Collects.declareParams ns _ (h.declare ⟨rfl, rfl, rfl⟩ hp) (hv.withVar rfl rfl)
      · exact Ends.bind (Ends.throw hp)
    · exact Collects.declareParams ns params hp hv

theorem Collects.addDefinition {n : Node} (hn : n ∈ definitions fs project) :
    Keeps I (addDefinition fs project n) := by
  refine .bind .get fun p => ?_
  split
  · exact .pure _
  · refine .bind (h.modify (fun _ => rfl) (fun _ => rfl) (fun _ => rfl) fun _ => rfl) fun _ =>
      ⟨fun p hp => Ends.bind ((h.declareParams n.children [] hp (.start n.spelling p)).mono ?_
        fun _ _ hq => hq)⟩
    rintro ⟨params, vars⟩ q ⟨hq, hv⟩
    exact Ends.of_ok (addFunction_ok q _) (h.defined hn hp hq hv _ _)

theorem Collects.addType (n : Node) : Keeps I (addType fs n) := by
  refine .bind .get fun p => ?_
  split
  · exact .pure _
  · exact h.modify (fun _ => rfl) (fun _ => rfl) (fun _ => rfl) fun _ => rfl

theorem Collects.addDeclaration {n : Node}
    (hn : definesFunction fs project n = true → n ∈ definitions fs project) :
    Keeps I (addDeclaration fs project n) := by
  unfold Project.addDeclaration
  split
  · exact .pure _
  · split
    · exact h.addGlobal n
    · split
      · next hd => exact h.addDefinition (hn hd)
      · exact .pure _
    · exact h.addType n
    · exact h.addType n
    · exact h.addType n
    · exact h.modify (fun _ => rfl) (fun _ => rfl) (fun _ => rfl) fun _ => rfl
    · exact .pure _

theorem Collects.collect : Keeps I (collect fs project) := by
  refine .forM fun source hsource => .forM fun n hn => h.addDeclaration fun hd => ?_
  exact List.mem_filter.mpr ⟨List.mem_flatMap.mpr ⟨source, hsource, hn⟩, hd⟩

theorem Collects.declareArguments (T : TypeTable) :
    ∀ (args : List Argument) {vars : Table String VarId} {p : Project}, I p →
      Declares function p₀ p vars → Ends (declareArguments T function vars args) p
        (fun vars q => I q ∧ Declares function p₀ q vars) fun _ => I
  | [], _, _, hp, hv => Ends.pure ⟨hp, hv⟩
  | _ :: args, _, p, hp, hv =>
      Ends.bind_ok (onMemory_declare p _) (Collects.declareArguments T args
        (h.declare ⟨rfl, rfl, rfl⟩ hp) (hv.withVar rfl rfl))

theorem Collects.addEntry (file : String) {j : Json}
    (hj : Admits (fieldOrNull j "function_name") I) : Keeps I (addEntry file j) := by
  refine ⟨fun p hp => Ends.bind (Ends.get ?_)⟩
  dsimp only
  split
  · exact Ends.pure hp
  · split
    · exact Ends.pure hp
    · next hentry =>
      simp only [Bool.or_eq_true, Bool.not_eq_true', not_or, Bool.not_eq_false,
        Bool.not_eq_true] at hentry
      refine Ends.bind (Ends.orFault (fun args _ => ?_) fun _ _ => hp)
      refine Ends.bind ((h.declareArguments _ args hp (.start _ p)).mono ?_ fun _ _ hq => hq)
      rintro vars q ⟨hq, hv⟩
      refine Ends.bind (Ends.orFault (fun configured _ => ?_) fun _ _ => hq)
      split
      · exact Ends.throw hq
      · next label hl =>
        have hknown : p.knows label.key = false := by
          have hnone := hentry.2
          rw [hl] at hnone
          exact hnone
        refine Ends.bind_ok (addFunction_ok q _) ?_
        refine (h.modify (fun _ => ?_) (fun _ => ?_) (fun _ => ?_) fun _ => ?_).ends _
          (hj hentry.1.2 hl hknown hp hq hv _ _ _ _)
        all_goals rfl

end Collects

theorem Gathers.load (h : Gathers fs project I) : Keeps I (load fs project) :=
  .forM fun file _ => .forM fun _ _ => h.addEntry file.1 (h.configured _)

/-- The property depends on the functions and the trace alone, and it is kept when a defined or a
configured function is added. -/
structure OfFunctions (fs : Files) (project : String) (I : Project → Prop) : Prop where
  rest : ∀ {p q : Project}, q.analysis.functions = p.analysis.functions → q.trace = p.trace →
    I p → I q
  defined : ∀ {n : Node}, n ∈ definitions fs project → ∀ source params vars,
    Keeps I (addFunction { name := .text n.spelling, source, params, vars, body := some n })
  configured : ∀ {name : Json} {label : Label}, name.truthy → Label.ofJson? name = some label →
    ∀ T source args vars configured, Keeps I (addFunction
      { name := label, source, params := args.map Argument.name, vars,
        reads := flagged T name.plain Argument.reads args,
        writes := flagged T name.plain Argument.writes args, configured })

theorem OfFunctions.gathers (h : OfFunctions fs project I) : Gathers fs project I where
  rest ha _ _ ht hp := h.rest (congrArg Analysis.functions ha) ht hp
  declare {p _} _ hp := h.rest (p := p) rfl rfl hp
  global {p _} _ _ _ hp := h.rest (p := p) rfl rfl hp
  noted {p _ _} hp := h.rest (p := p) rfl rfl hp
  defined hn _ p vars _ hp _ source params :=
    ((h.defined hn source params vars).ends p hp).value _ _ rfl
  configured _ _ hname hl _ p vars _ _ hp _ T source args configured :=
    ((h.configured hname hl T source args vars configured).ends p hp).value _ _ rfl

end Project

end Footprint
