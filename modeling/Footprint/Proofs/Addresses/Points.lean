import Footprint.Proofs.Addresses.Entry
import Footprint.Proofs.Call.Members

/-!
# The points of a run

A run can be looked at between two declarations that it reads, between two
functions, before the body of a function starts, and between two steps of a body.
`HoldsBlocks` says that every address that is held there is that of a block.

Lookups and layouts add blocks one by one, and what is held is that of blocks
after each of them.  A whole is given the address of a new part before the block
of the part is appended.  At this one point an address is held that has no block
yet (`Midway`).  Nothing is looked up before it has one.
-/

namespace Footprint

open Config

open Memory (Linked Change Changes)

namespace Memory

variable {T : TypeTable} {m m' mid : Memory}

end Memory

namespace Walk

variable {T : TypeTable} {w : Walk} {m mid : Memory}

end Walk

/-! ## Before a body -/

namespace Analysis

theorem Aimed.entering {a : Analysis} (h : a.Aimed) : (Walk.entering a).Aimed :=
  ⟨h.memory, h.pointers, h.functions⟩

variable {T : TypeTable} {id : Nat} {a a' a₁ : Analysis} {f : Function}

/-- The states before the body of a function starts: the pointers to blocks are forgotten, the
initialisers recalled, the uses as arrays noted, and the parameters laid out, each with the block
that a pointer is taken to point to. -/
inductive Opening (T : TypeTable) (id : Nat) (a : Analysis) : Analysis → Prop
  | start : Opening T id a a
  | cleared {a₁ a₂ : Analysis} (ha : Opening T id a a₁)
      (h : Leads (onMemory Memory.clearRefs) a₁ a₂) : Opening T id a a₂
  | recalled {a₁ a₂ : Analysis} {name : String} {init : Node} (ha : Opening T id a a₁)
      (h : Leads (recallPointer T name init) a₁ a₂) : Opening T id a a₂
  | scanned {a₁ a₂ : Analysis} {f : Function} (ha : Opening T id a a₁)
      (h : Leads (scanBody id f) a₁ a₂) : Opening T id a a₂
  | asArray {a₁ a₂ : Analysis} {v : VarId} (ha : Opening T id a a₁)
      (h : Leads (onMemory (Memory.change v (Memory.asArray T))) a₁ a₂) : Opening T id a a₂
  | param {a₁ a₂ : Analysis} {v : VarId} (ha : Opening T id a a₁) (hv : v < a₁.memory.vars.size)
      (h : Leads (onMemory (Memory.allocateRoot T v)) a₁ a₂) : Opening T id a a₂
  | pointee {a₁ a₂ : Analysis} {v : Variable} (ha : Opening T id a a₁)
      (h : Leads (onMemory (Memory.allocatePointee T v)) a₁ a₂) : Opening T id a a₂
  | aimed {a₁ a₂ : Analysis} {target : Nat} {name : String} (ha : Opening T id a a₁)
      (ht : a₁.memory.Owns target) (h : Leads (onMemory (Memory.addRef target name)) a₁ a₂) :
      Opening T id a a₂

theorem Opening.aimed_of (h : Opening T id a a') (ha : a.Aimed) : a'.Aimed := by
  induction h with
  | start => exact ha
  | cleared _ h ih => exact (minds_onMemory Memory.minds_clearRefs).leads ih h
  | recalled _ h ih => exact (minds_recallPointer T _ _).leads ih h
  | scanned _ h ih => exact (minds_scanBody id _).leads ih h
  | asArray _ h ih =>
    exact (minds_onMemory (Memory.minds_change _ (Memory.asArray_name T) (Memory.asArray_parts T)
      (Memory.asArray_target T))).leads ih h
  | param _ hv h ih => exact (minds_onMemory (Memory.minds_allocateRoot T hv)).leads ih h
  | pointee _ h ih => exact (minds_onMemory (Memory.minds_allocatePointee T _)).leads ih h
  | aimed _ ht h ih => exact (minds_onMemory (Memory.minds_addRef ht _)).leads ih h

theorem leads_onMemory {α : Type} {x : MemM α} {r : α} {m m' : Memory} (h : x m = .ok r m') :
    Leads (onMemory x) { a₁ with memory := m } { a₁ with memory := m' } :=
  .inl ⟨r, by rw [onMemory, zoom, h]⟩

/-- The recalled initialisers are such states. -/
theorem Opening.recallPointers : ∀ {inits : List (String × Node)} {a₁ a₂ : Analysis},
    Opening T id a a₁ → recallPointers T inits a₁ = .ok ⟨⟩ a₂ → Opening T id a a₂
  | [], _, _, h, hrun => by
    cases hrun
    exact h
  | (name, init) :: rest, _, _, h, hrun => by
    obtain ⟨_, a₂, hfirst, hrest⟩ := exists_of_bind hrun
    exact Opening.recallPointers (h.recalled (.inl ⟨_, hfirst⟩)) hrest

/-- A parameter is laid out, and what it is taken to point to. -/
theorem Opening.allocateParam (ha : a.Aimed) {v : VarId} {noted noted' : Table String Nat}
    {m m' : Memory} (h : Opening T id a { a₁ with memory := m }) (hv : v < m.vars.size)
    (hrun : Memory.allocateParam T noted v m = .ok noted' m') :
    Opening T id a { a₁ with memory := m' } ∧ m.vars.size ≤ m'.vars.size := by
  obtain ⟨_, m₁, hroot, hrest⟩ := exists_of_bind hrun
  have h₁ := h.param hv (leads_onMemory hroot)
  have hgrows₁ := ((Memory.minds_allocateRoot T hv).ends m (h.aimed_of ha).memory
    (.refl m)).value _ _ hroot |>.2.1.vars
  obtain ⟨_, _, hget, hrest⟩ := exists_of_bind hrest
  cases hget
  dsimp only at hrest
  split at hrest
  · obtain ⟨target, m₂, hpointee, hrest⟩ := exists_of_bind hrest
    obtain ⟨hm₂, hgrows₂, howns⟩ := ((Memory.minds_allocatePointee T _).ends m₁
      (h₁.aimed_of ha).memory (.refl m₁)).value _ _ hpointee
    obtain ⟨_, m₃, haim, hrest⟩ := exists_of_bind hrest
    have hgrows₃ :=
      ((Memory.minds_addRef howns _).ends m₂ hm₂ (.refl m₂)).value _ _ haim |>.2.1.vars
    cases hrest
    exact ⟨(h₁.pointee (leads_onMemory hpointee)).aimed howns (leads_onMemory haim),
      hgrows₁.trans (hgrows₂.vars.trans hgrows₃)⟩
  · cases hrest
    exact ⟨h₁, hgrows₁⟩

/-- The parameters are laid out one by one. -/
theorem Opening.allocateParams (ha : a.Aimed) :
    ∀ {ids : List VarId} {noted noted' : Table String Nat} {m m' : Memory},
      Opening T id a { a₁ with memory := m } → (∀ v ∈ ids, v < m.vars.size) →
      Memory.allocateFunctionParams T noted ids m = .ok noted' m' →
      Opening T id a { a₁ with memory := m' }
  | [], _, _, _, _, h, _, hrun => by
    cases hrun
    exact h
  | v :: ids, _, _, m, _, h, hids, hrun => by
    obtain ⟨hv, hrest⟩ := List.forall_mem_cons.mp hids
    obtain ⟨_, _, hget, hrun⟩ := exists_of_bind hrun
    cases hget
    dsimp only at hrun
    split at hrun
    · exact Opening.allocateParams ha h hrest hrun
    · obtain ⟨_, m₁, hchange, hrun⟩ := exists_of_bind hrun
      obtain ⟨noted₂, m₂, hparam, hrun⟩ := exists_of_bind hrun
      have hsize₁ : m₁.vars.size = m.vars.size := by
        cases hchange
        exact Array.size_modify
      obtain ⟨h₂, hsize₂⟩ := (h.asArray (leads_onMemory hchange)).allocateParam ha
        (hsize₁ ▸ hv) hparam
      exact Opening.allocateParams ha h₂
        (fun j hj => Nat.lt_of_lt_of_le (hrest j hj) (hsize₁ ▸ hsize₂)) hrun

/-- The body starts in such a state. -/
theorem Enters.opening {s : Scope} {w : Walk} (h : Enters T id a s w) (ha : a.Aimed) :
    ∃ a₄ defaults, Opening T id a a₄ ∧ w = a₄.bodyStart defaults := by
  obtain ⟨hclear, hrecall, hf, hscan, hparams⟩ := h
  next a₁ a₂ a₃ a₄ f defaults =>
  have h₂ : Opening T id a a₂ := (Opening.start.cleared (.inl ⟨_, hclear⟩)).recallPointers hrecall
  have h₃ := h₂.scanned (.inl ⟨_, hscan⟩)
  have hfunctions : f ∈ a₃.functions := by
    have hsame : SameRest a₂ a₃ := ((keeps_scanBody f).ends a₂ (.refl a₂)).value _ _ hscan
    rw [hsame]
    exact Array.mem_of_getElem? hf
  obtain ⟨m, hm, rfl⟩ := ok_of_zoom hparams
  refine ⟨_, defaults, h₃.allocateParams ha (fun v hv => ?_) hm, rfl⟩
  exact (((h₃.aimed_of ha).functions f hfunctions).params v hv).lt

end Analysis

namespace Project

/-! ## The points of a run -/

/-- The states while a project is read, from one declaration, one configured function, one global
and one initialiser to the next. -/
inductive Reading (fs : Files) (project : String) : Project → Prop
  | start : Reading fs project {}
  | declaration {p p' : Project} {n : Node} (hp : Reading fs project p)
      (h : Leads (addDeclaration fs project n) p p') : Reading fs project p'
  | sizes {p p' : Project} (hp : Reading fs project p)
      (h : Leads (onTypes TypeTable.sizeAll) p p') : Reading fs project p'
  | configured {p p' : Project} {file : String} {j : Json} (hp : Reading fs project p)
      (h : Leads (addEntry file j) p p') : Reading fs project p'
  | global {p p' : Project} {id : VarId} (hp : Reading fs project p) (hid : id ∈ p.globalIds)
      (h : Leads (onMemory (Memory.allocateRoot p.types id)) p p') : Reading fs project p'
  | initial {p p' : Project} {name : String} {init : Node} (hp : Reading fs project p)
      (h : Leads (onAnalysis (Analysis.initPointer p.types name init)) p p') : Reading fs project p'

/-- The run comes to a function: the project has been read, and the functions before it in the
order have been analysed. -/
inductive ComesTo (fs : Files) (path : String) (entry : Option String) (id : Nat) (p : Project) :
    Prop
  | mk {p₀ p₁ : Project} {done rest : List Nat}
      (hread : prepare fs (fs.absolute path) {} = .ok ⟨⟩ p₀)
      (hids : schedule fs (fs.absolute path) entry p₀ = .ok (done ++ id :: rest) p₁)
      (hdone : done.forM analyse p₁ = .ok ⟨⟩ p)

/-- The states of a run between functions. -/
inductive Passes (fs : Files) (path : String) (entry : Option String) : Project → Prop
  | reading {p : Project} (h : Reading fs (fs.absolute path) p) : Passes fs path entry p
  | read {p : Project} (h : Leads (prepare fs (fs.absolute path)) {} p) : Passes fs path entry p
  | analysed {id : Nat} {p p' : Project} (hp : ComesTo fs path entry id p)
      (h : Leads (analyse id) p p') : Passes fs path entry p'
  | ended {p : Project} (h : Leads (run fs path entry) {} p) : Passes fs path entry p

section Points

variable {fs : Files} {path : String} {entry : Option String} {p : Project}

theorem Reading.aimed {project : String} (h : Reading fs project p) : p.Aimed := by
  induction h with
  | start => exact aimed_empty
  | declaration _ h ih => exact (minds_addDeclaration _).leads ih h
  | sizes _ h ih => exact (minds_onTypes TypeTable.inBounds_sizeAll).leads ih h
  | configured _ h ih => exact (minds_addEntry _ _).leads ih h
  | global _ hid h ih =>
    exact (minds_onMemory (Memory.minds_allocateRoot _ (ih.globals _ hid))).leads ih h
  | initial _ h ih => exact (minds_onAnalysis (Analysis.minds_initPointer _ _ _)).leads ih h

theorem ComesTo.aimed {id : Nat} (h : ComesTo fs path entry id p) : p.Aimed := by
  obtain ⟨hread, hids, hdone⟩ := h
  have h₀ := minds_prepare.leads aimed_empty (.inl ⟨_, hread⟩)
  have h₁ := (minds_schedule entry).leads h₀ (.inl ⟨_, hids⟩)
  exact (Minds.forM fun id _ => minds_analyse id).leads h₁ (.inl ⟨_, hdone⟩)

theorem Passes.aimed (h : Passes fs path entry p) : p.Aimed := by
  cases h with
  | reading h => exact h.aimed
  | read h => exact minds_prepare.leads aimed_empty h
  | analysed hp h => exact (minds_analyse _).leads hp.aimed h
  | ended h => exact (minds_run path entry).leads aimed_empty h

end Points

end Project

end Footprint
