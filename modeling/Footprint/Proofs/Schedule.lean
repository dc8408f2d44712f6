import Footprint.Proofs.CallGraph
import Footprint.Proofs.Reading
import Footprint.Proofs.Trees
import Mathlib.Data.List.Nodup

/-!
# Callees are analysed before their callers

An entry function from which no cycle of the call graph can be reached has a
schedule: the known functions that it reaches, each once, callees first.  When
the analysis of a function meets a call, the record of the callee is final.

Three facts are put together.  The analysis of a function changes no record but
its own (`Frame`).  After a project has been read, each body is a definition of
the call graph, under the name of its function (`Prepared`).  And the order of
analysis is legal for the graph (`Order.run_init`).
-/

namespace Footprint

open CallGraph Analysis

/-! ## What the analysis of a function leaves alone -/

namespace Analysis

/-- The property speaks neither of the memory nor of the record of a function. -/
structure Frame (id : Nat) (I : Analysis → Prop) : Prop where
  memory : ∀ m a, I a → I { a with memory := m }
  record : ∀ f a, I a → I { a with functions := a.functions.modify id f }

section Frame

variable {id : Nat} {I : Analysis → Prop} (h : Frame id I)

include h

theorem Frame.onMemory {α : Type} (x : MemM α) : Keeps I (onMemory x) := .zoom x h.memory

theorem Frame.initTarget (T : TypeTable) (init : Node) : Keeps I (initTarget T init) :=
  .bind .get fun _ => h.onMemory _

omit h in
theorem Frame.recallPointers (h : Frame id I) (T : TypeTable) :
    ∀ inits : List (String × Node), Keeps I (recallPointers T inits)
  | [] => .pure _
  | (name, init) :: rest => by
      refine .bind (.bind (h.initTarget T init) fun a => ?_) fun _ => recallPointers h T rest
      cases a with
      | none => exact .pure _
      | some a => exact h.onMemory _

theorem Frame.scanBody (f : Function) : Keeps I (scanBody id f) := by
  unfold Analysis.scanBody
  split
  · refine .bind .get fun a => ?_
    split
    · exact h.onMemory _
    · exact .pure _
  · exact .pure _

theorem Frame.inBody (T : TypeTable) (name : String) (calls : CallIndex) (f : Function)
    (pointers : Table String (Option Int)) :
    Keeps I (inBody pointers (perform calls { types := T, root := id, name } f)) := by
  constructor
  intro a ha
  have houter : Walk.Outer { types := T, root := id, name }
      fun w => I { a with memory := w.memory, functions := w.functions } :=
    { memory := fun m w hw => h.memory m _ hw
      pointers := fun _ _ hw => hw
      written := fun _ _ hw => hw
      root := fun g w hw => h.record g _ hw }
  have hends := (houter.perform calls f).ends
    { memory := a.memory, functions := a.functions, pointers } ha
  cases hx : perform calls { types := T, root := id, name } f
      { memory := a.memory, functions := a.functions, pointers } with
  | ok _ w => exact .of_ok (by rw [Analysis.inBody, hx]) (hends.value _ w hx)
  | error e w => exact .of_error (by rw [Analysis.inBody, hx]) (hends.fault e w hx)

theorem Frame.analyse (T : TypeTable) : Keeps I (analyse T id) := by
  refine .bind (h.onMemory _) fun _ => .bind .get fun a => .bind (h.recallPointers T _) fun _ =>
    .bind .get fun a => ?_
  split
  · exact .pure _
  · exact .bind (h.scanBody _) fun _ => .bind (h.onMemory _) fun _ => .bind .get fun _ =>
      h.inBody T _ _ _ _

end Frame

theorem frame_record {id j : Nat} (hj : j ≠ id) (r : Option Function) :
    Frame id fun a => a.functions[j]? = r where
  memory _ _ ha := ha
  record f a ha := by simpa [Array.getElem?_modify, hj.symm] using ha

theorem frame_index (id : Nat) (calls : CallIndex) : Frame id fun a => a.index = calls where
  memory _ _ ha := ha
  record _ _ ha := ha

end Analysis

namespace Project

/-- The record of a function. -/
def record? (p : Project) (id : Nat) : Option Function := p.analysis.functions[id]?

variable {I : Analysis → Prop} {ids : List Nat}

theorem keeps_analyse {id : Nat} (h : Frame id I) :
    Keeps (fun p => I p.analysis) (analyse id) := by
  refine .bind .get fun p => .bind ?_ fun _ => .modify ?_
  · exact ⟨fun q hq => Ends.zoom ((h.analyse p.types).ends q.analysis hq)⟩
  · intro q hq
    split <;> exact hq

theorem keeps_analyse_each
    (h : ∀ id ∈ ids, Frame id I) : Keeps (fun p => I p.analysis) (ids.forM analyse) :=
  .forM fun id hid => keeps_analyse (h id hid)

/-- Analysing functions changes no record of another one. -/
theorem keeps_record {j : Nat} (hj : j ∉ ids) (r : Option Function) :
    Keeps (fun p => p.record? j = r) (ids.forM analyse) :=
  keeps_analyse_each fun id hid => frame_record (by rintro rfl; exact hj hid) r

theorem keeps_index (ids : List Nat) (calls : CallIndex) :
    Keeps (fun p => p.analysis.index = calls) (ids.forM analyse) :=
  keeps_analyse_each fun id _ => frame_index id calls

/-! ## What reading a project establishes -/

/-- The function has a name, and its body is a definition of the call graph under that name. -/
structure Defined (fs : Files) (project : String) (f : Function) : Prop where
  named : f.name ≠ .text ""
  body : ∀ n, f.body = some n → n ∈ definitions fs project ∧ f.name = .text n.spelling

/-- No function has been analysed, and each function is defined or configured. -/
structure Collected (fs : Files) (project : String) (p : Project) : Prop where
  trace : p.trace = []
  functions : ∀ f ∈ p.analysis.functions, Defined fs project f

section Collected

variable {fs : Files} {project : String}

theorem Collected.congr {p q : Project} (h : Collected fs project p)
    (hf : q.analysis.functions = p.analysis.functions) (ht : q.trace = p.trace) :
    Collected fs project q :=
  ⟨ht.trans h.trace, by rw [hf]; exact h.functions⟩

theorem keeps_addFunction {f : Function} (hf : Defined fs project f) :
    Keeps (Collected fs project) (addFunction f) := by
  refine .modify fun p hp => ⟨hp.trace, ?_⟩
  intro g hg
  cases Array.mem_push.mp hg with
  | inl hg => exact hp.functions g hg
  | inr he => rw [he]; exact hf

theorem spelling_ne_empty {n : Node} (hn : n ∈ definitions fs project) : n.spelling ≠ "" := by
  have hd := (List.mem_filter.mp hn).2
  simp only [definesFunction, Bool.and_eq_true, Bool.not_eq_true', String.isEmpty_eq_false_iff]
    at hd
  exact hd.2

theorem ne_empty_of_truthy {j : Json} {label : Label} (hj : j.truthy)
    (hl : Label.ofJson? j = some label) : label ≠ .text "" := by
  rintro rfl
  cases j with
  | str s => cases hl; simp [Json.truthy] at hj
  | _ => cases hl

/-- Defined functions have their definition as body, configured ones have none. -/
theorem collected_ofFunctions : OfFunctions fs project (Collected fs project) where
  rest hf ht hp := hp.congr hf ht
  defined hn _ _ _ := by
    refine keeps_addFunction ⟨?_, ?_⟩
    · simp only [ne_eq, Label.text.injEq]
      exact spelling_ne_empty hn
    · intro m hm
      cases hm
      exact ⟨hn, rfl⟩
  configured hname hl _ _ _ _ _ := keeps_addFunction ⟨ne_empty_of_truthy hname hl, by simp⟩

end Collected

end Project

/-! ## The call index -/

namespace Analysis

/-- What the initial targets of pointers leave alone. -/
def SameCalls (known : Array Function) (calls : CallIndex) (a : Analysis) : Prop :=
  a.functions = known ∧ a.index = calls

variable {known : Array Function} {calls : CallIndex} {k : LabelKey}

theorem keeps_preset (name : String) (a : Int) : Keeps (SameCalls known calls) (preset name a) :=
  .bind (.modify fun _ h => h) fun _ => .zoom _ fun _ _ h => h

theorem keeps_presetPointers :
    ∀ presets : List (String × Int), Keeps (SameCalls known calls) (presetPointers presets)
  | [] => .pure _
  | (name, a) :: presets => .bind (keeps_preset name a) fun _ => keeps_presetPointers presets

theorem keeps_initPointers (T : TypeTable) :
    ∀ inits : List (String × Node), Keeps (SameCalls known calls) (initPointers T inits)
  | [] => .pure _
  | (name, init) :: inits => by
      refine .bind (.bind (.bind .get fun _ => .zoom _ fun _ _ h => h) fun a => ?_) fun _ =>
        keeps_initPointers T inits
      cases a with
      | none => exact .pure _
      | some a => exact keeps_preset name a

theorem start_ends (T : TypeTable) (globals : List VarId) (inits : Table String Node)
    (ids : List Nat) (presets : Table String Int) (a : Analysis) :
    Ends (start T globals inits ids presets) a
      (fun _ => SameCalls a.functions (indexOf a.functions ids))
      fun _ => SameCalls a.functions (indexOf a.functions ids) :=
  Ends.bind (Ends.modify ((Keeps.bind (keeps_presetPointers _) fun _ =>
    keeps_initPointers T _).ends _ ⟨rfl, rfl⟩))

/-- Each entry of the index names a function with its key. -/
def Indexes (known : Array Function) (calls : CallIndex) : Prop :=
  ∀ k id, calls.get? k = some id → ∃ f, known[id]? = some f ∧ f.name.key = k

theorem Indexes.takeIn (h : Indexes known calls)
    (id : Nat) : Indexes known (takeIn known calls id) := by
  unfold Analysis.takeIn
  split
  · next f hf =>
    intro k j hk
    rw [Table.get?_set] at hk
    split at hk
    · next he => cases hk; exact ⟨f, hf, he⟩
    · exact h k j hk
  · exact h

theorem Indexes.foldl :
    ∀ (ids : List Nat) {calls : CallIndex}, Indexes known calls →
      Indexes known (ids.foldl (Analysis.takeIn known) calls)
  | [], _, h => h
  | id :: ids, _, h => foldl ids (h.takeIn id)

theorem indexes_indexOf (known : Array Function) (ids : List Nat) :
    Indexes known (indexOf known ids) :=
  .foldl ids fun _ _ h => nomatch h

theorem isSome_takeIn (id : Nat)
    (h : (calls.get? k).isSome) : ((takeIn known calls id).get? k).isSome := by
  unfold takeIn
  split
  · rw [Table.get?_set]
    split
    · rfl
    · exact h
  · exact h

theorem isSome_foldl :
    ∀ (ids : List Nat) {calls : CallIndex}, (calls.get? k).isSome →
      ((ids.foldl (takeIn known) calls).get? k).isSome
  | [], _, h => h
  | id :: ids, _, h => isSome_foldl ids (isSome_takeIn id h)

/-- A function that was taken in has an entry under its key. -/
theorem isSome_foldl_of_mem {id : Nat} {f : Function}
    (hf : known[id]? = some f) :
    ∀ (ids : List Nat) {calls : CallIndex}, id ∈ ids →
      ((ids.foldl (takeIn known) calls).get? f.name.key).isSome
  | _ :: ids, _, hm => by
      cases List.mem_cons.mp hm with
      | inl he =>
          subst he
          exact isSome_foldl ids (by simp [takeIn, hf])
      | inr hm => exact isSome_foldl_of_mem hf ids hm

end Analysis

theorem Label.eq_text_of_key {label : Label} {s : String} (h : label.key = .text s) :
    label = .text s := by
  cases label with
  | text t => cases h; rfl
  | whole i => cases h
  | flag b => cases h
  | real d =>
    unfold Label.key at h
    dsimp only at h
    split at h <;> cases h

namespace Project

variable {fs : Files} {project : String} {p : Project}

/-- The project has been read, and the call index is made. -/
structure Prepared (fs : Files) (project : String) (p : Project) : Prop
    extends Collected fs project p where
  index : p.analysis.index =
    indexOf p.analysis.functions (List.range p.analysis.functions.size)

/-- What is gathered while a project is read is there in the end, with the index of the
functions. -/
theorem OfFunctions.prepare {I : Project → Prop} (h : OfFunctions fs project I) (hstart : I {}) :
    Ends (prepare fs project) {} (fun _ p => I p ∧ p.analysis.index =
      indexOf p.analysis.functions (List.range p.analysis.functions.size)) fun _ => I := by
  unfold Project.prepare
  have hmemory : ∀ x : MemM Unit, Keeps I (onMemory x) := fun x =>
    .zoom x fun _ p hp => h.rest (p := p) rfl rfl hp
  refine h.gathers.collect.ends_bind hstart fun _ p hp => ?_
  refine (h.gathers.onTypes _).ends_bind hp fun _ p hp => ?_
  refine h.gathers.load.ends_bind hp fun _ p hp => ?_
  refine Keeps.get.ends_bind hp fun q p hp => ?_
  refine (hmemory _).ends_bind hp fun _ p hp => ?_
  refine Ends.bind (Ends.get (Ends.zoom ?_))
  refine (start_ends p.types p.globalIds p.inits _ {} p.analysis).mono ?_ ?_
  · intro _ a ha
    refine ⟨h.rest (p := p) ha.1 rfl hp, ?_⟩
    dsimp only
    rw [ha.2, ha.1]
  · intro _ a ha
    exact h.rest (p := p) ha.1 rfl hp

/-- Reading a project analyses nothing, and prepares it unless it stops. -/
theorem prepare_ends (fs : Files) (project : String) :
    Ends (prepare fs project) {} (fun _ => Prepared fs project) fun _ => Collected fs project :=
  (collected_ofFunctions.prepare ⟨rfl, by simp⟩).mono (fun _ _ hp => ⟨hp.1, hp.2⟩) fun _ _ hp => hp

variable {name entry : String} {id : Nat} {names done : List String} {before after : List Nat}
variable {p₁ : Project}

theorem Prepared.record_of_index (h : Prepared fs project p)
    (hid : p.analysis.index.get? (.text name) = some id) :
    ∃ f, p.record? id = some f ∧ f.name = .text name := by
  rw [h.index] at hid
  obtain ⟨f, hf, hk⟩ := indexes_indexOf _ _ _ _ hid
  exact ⟨f, hf, Label.eq_text_of_key hk⟩

theorem Prepared.isSome_index (h : Prepared fs project p) {k : LabelKey} (hk : p.knows k) :
    (p.analysis.index.get? k).isSome := by
  obtain ⟨f, hf, hk⟩ := List.any_eq_true.mp hk
  obtain ⟨id, hid⟩ := List.getElem?_of_mem hf
  have hid : p.analysis.functions[id]? = some f := by simpa [functions] using hid
  have hlt : id < p.analysis.functions.size := (Array.getElem?_eq_some_iff.mp hid).1
  rw [h.index, ← of_decide_eq_true hk]
  exact isSome_foldl_of_mem hid _ (List.mem_range.mpr hlt)

theorem Prepared.knows_of_index (h : Prepared fs project p)
    (hid : p.analysis.index.get? (.text name) = some id) : p.knows (.text name) := by
  obtain ⟨f, hf, hname⟩ := h.record_of_index hid
  have hm : f ∈ p.functions := Array.mem_toList_iff.mpr (Array.mem_of_getElem? hf)
  exact List.any_eq_true.mpr ⟨f, hm, by simp [hname, Label.key]⟩

theorem Prepared.ne_empty_of_index (h : Prepared fs project p)
    (hid : p.analysis.index.get? (.text name) = some id) : name ≠ "" := by
  rintro rfl
  obtain ⟨f, hf, hname⟩ := h.record_of_index hid
  exact (h.functions f (Array.mem_of_getElem? hf)).named hname

/-- What is called below the body of a function is a callee of it in the call graph. -/
theorem Prepared.callsInEach_subset (h : Prepared fs project p) {f : Function}
    (hf : p.record? id = some f) (hname : f.name = .text name) {n : Node} (hn : f.body = some n) :
    callsInEach n.children ⊆ (ofProject fs project).callees name := by
  obtain ⟨hdef, hs⟩ := (h.functions f (Array.mem_of_getElem? hf)).body n hn
  rw [hname] at hs
  cases hs
  exact fun x hx => mem_callees_ofProject.mpr ⟨n, hdef, rfl, hx⟩

/-! ## The schedule -/

/-- From an entry without a reachable cycle there is an order of analysis. -/
theorem order_ok
    (hc : Order.NoCycleFrom (ofProject fs project).callees entry) :
    ∃ done, order fs project entry = .ok done.reverse ∧
      Order.Legal (ofProject fs project).callees done ∧
      ∀ name, name ∈ done ↔ Order.Reaches (ofProject fs project).callees entry name := by
  obtain ⟨done, hrun, hl, hreach⟩ := Order.fromRoot?_legal (bounded_callees _) hc
  refine ⟨done, ?_, hl, hreach⟩
  unfold order
  dsimp only
  rw [hrun]

/-- The functions that are scheduled for some names. -/
def scheduled (p : Project) (names : List String) : List Nat :=
  names.filterMap fun name => p.analysis.index.get? (.text name)

theorem schedule_ok (hne : entry ≠ "")
    (ho : order fs project entry = .ok names) :
    schedule fs project (some entry) p = .ok (p.scheduled names) p := by
  have hentry : (some entry).filter (!·.isEmpty) = some entry := by simp [hne]
  unfold schedule
  show EStateM.bind get _ p = _
  rw [hentry]
  simp only [ho]
  rfl

/-- Each known name is scheduled as the function with that name. -/
theorem Prepared.names_scheduled (h : Prepared fs project p) (names : List String) :
    (p.scheduled names).map (fun id => (p.record? id).map Function.name) =
      (names.filter fun name => p.knows (.text name)).map fun name => some (.text name) := by
  induction names with
  | nil => rfl
  | cons name names ih =>
    by_cases hk : p.knows (.text name)
    · obtain ⟨id, hid⟩ := Option.isSome_iff_exists.mp (h.isSome_index hk)
      obtain ⟨f, hf, hname⟩ := h.record_of_index hid
      have hcons : p.scheduled (name :: names) = id :: p.scheduled names :=
        List.filterMap_cons_some (f := fun name => p.analysis.index.get? (.text name)) hid
      simp [hcons, hk, hf, hname, ih]
    · have hid : p.analysis.index.get? (.text name) = none := by
        cases hid : p.analysis.index.get? (.text name) with
        | none => rfl
        | some id => exact absurd (h.knows_of_index hid) hk
      have hcons : p.scheduled (name :: names) = p.scheduled names :=
        List.filterMap_cons_none (f := fun name => p.analysis.index.get? (.text name)) hid
      simp [hcons, hk, ih]

/-- In a legal order the callees of a scheduled function are scheduled before it. -/
theorem scheduled_split {callees : Order.Callees} (hl : Order.Legal callees done)
    (hs : p.scheduled done.reverse = before ++ id :: after) :
    ∃ name, p.analysis.index.get? (.text name) = some id ∧
      ∀ g ∈ callees name, ∀ j, p.analysis.index.get? (.text g) = some j → j ∈ before := by
  obtain ⟨first, rest, hsplit, hfirst, hrest⟩ := List.filterMap_eq_append_iff.mp hs
  obtain ⟨skipped, name, last, rfl, hskip, hname, hlast⟩ := List.filterMap_eq_cons_iff.mp hrest
  refine ⟨name, hname, fun g hg j hj => ?_⟩
  have hdone : done = last.reverse ++ name :: (first ++ skipped).reverse := by
    have := congrArg List.reverse hsplit
    simpa using this
  rw [hdone] at hl
  have hmem : g ∈ first ++ skipped := List.mem_reverse.mp (hl.callees_of_append g hg)
  rw [← hfirst]
  cases List.mem_append.mp hmem with
  | inl hm => exact List.mem_filterMap.mpr ⟨g, hm, hj⟩
  | inr hm => rw [hskip g hm] at hj; cases hj

/-- After `p` the functions `before` have been analysed, that leads to `p₁`, and now `id` is to be
analysed and then `after`. -/
structure Next (p : Project) (before : List Nat) (id : Nat) (after : List Nat) (p₁ : Project) :
    Prop where
  fresh : (before ++ id :: after).Nodup
  reached : before.forM analyse p = .ok ⟨⟩ p₁

theorem Next.record (h : Next p before id after p₁) : p₁.record? id = p.record? id := by
  have hid : id ∉ before := fun hm =>
    (List.nodup_append.mp h.fresh).2.2 id hm id (List.mem_cons_self ..) rfl
  exact ((keeps_record hid (p.record? id)).ends p rfl).value _ _ h.reached

theorem Next.index (h : Next p before id after p₁) : p₁.analysis.index = p.analysis.index :=
  ((keeps_index before p.analysis.index).ends p rfl).value _ _ h.reached

/-- The record of a function that has been analysed is final. -/
theorem Next.final (h : Next p before id after p₁) {callee : Nat} (hc : callee ∈ before)
    {later : List Nat} (hl : later <+: id :: after) :
    Ends (later.forM analyse) p₁ (fun _ p₂ => p₂.record? callee = p₁.record? callee)
      fun _ p₂ => p₂.record? callee = p₁.record? callee := by
  have hcallee : callee ∉ later := fun hm =>
    (List.nodup_append.mp h.fresh).2.2 callee hc callee (hl.subset hm) rfl
  exact (keeps_record hcallee (p₁.record? callee)).ends p₁ rfl

/-- The functions that the body `n` calls have been analysed when `before` have, and from `p₁` on,
where `rest` are still to be analysed, they stay as they are. -/
structure Settled (before rest : List Nat) (p₁ : Project) (n : Node) : Prop where
  /-- The record of the callee is the one that the whole run ends with. -/
  final : ∀ (call : Node) callee, call.Below n → call.kind = .call →
    p₁.analysis.index.get? (.text (Node.calleeName call.info)) = some callee →
    callee ∈ before ∧ ∀ later, later <+: rest →
      Ends (later.forM analyse) p₁ (fun _ p₂ => p₂.record? callee = p₁.record? callee)
        fun _ p₂ => p₂.record? callee = p₁.record? callee
  /-- The walk of the body is the same with any index that agrees where functions are analysed. -/
  asked : ∀ calls : CallIndex,
    (∀ k, (∀ j, p₁.analysis.index.get? k = some j → j ∈ before) →
      calls.get? k = p₁.analysis.index.get? k) →
    ∀ s, Walk.walkBody calls s n = Walk.walkBody p₁.analysis.index s n

/-- A schedule for an entry: each known function that can be reached stands in it once, under its
name, and what a body calls is settled when the body is analysed. -/
structure CalleesFirst (callees : Order.Callees) (entry : String) (p : Project)
    (ids : List Nat) : Prop where
  names : ∃ names : List String, names.Nodup ∧
    (∀ name, name ∈ names ↔ p.knows (.text name) ∧ Order.Reaches callees entry name) ∧
    ids.map (fun id => (p.record? id).map Function.name) = names.map fun name => some (.text name)
  settled : ∀ before id after p₁, ids = before ++ id :: after →
    before.forM analyse p = .ok ⟨⟩ p₁ →
    ∀ f n, p₁.record? id = some f → f.body = some n → Settled before (id :: after) p₁ n

theorem Prepared.nodup_scheduled (h : Prepared fs project p)
    (hn : names.Nodup) : (p.scheduled names).Nodup := by
  have hmap : ((p.scheduled names).map fun id => (p.record? id).map Function.name).Nodup := by
    rw [h.names_scheduled]
    exact (hn.filter _).map fun a b hab => by simpa using hab
  exact List.Nodup.of_map _ hmap

/-- The functions that are analysed from an entry are scheduled with callees first. -/
theorem Prepared.calleesFirst (h : Prepared fs project p)
    (hl : Order.Legal (ofProject fs project).callees done)
    (hm : ∀ name, name ∈ done ↔ Order.Reaches (ofProject fs project).callees entry name) :
    CalleesFirst (ofProject fs project).callees entry p (p.scheduled done.reverse) where
  names := by
    have hn : done.reverse.Nodup := List.nodup_reverse.mpr hl.nodup
    refine ⟨_, hn.filter _, fun name => ?_, h.names_scheduled _⟩
    rw [List.mem_filter, List.mem_reverse, hm, and_comm]
  settled := by
    intro before id after p₁ hs hp₁ f n hf hn
    have hnext : Next p before id after p₁ :=
      ⟨hs ▸ h.nodup_scheduled (List.nodup_reverse.mpr hl.nodup), hp₁⟩
    rw [hnext.record] at hf
    obtain ⟨name, hid, hbefore⟩ := scheduled_split hl hs
    obtain ⟨f', hf', hname⟩ := h.record_of_index hid
    cases hf.symm.trans hf'
    have hcalls := h.callsInEach_subset hf hname hn
    constructor
    · intro call callee hbelow hk hcallee
      rw [hnext.index] at hcallee
      have hcall := mem_callsInEach_of_below hbelow hk (h.ne_empty_of_index hcallee)
      have hmem := hbefore _ (hcalls hcall) callee hcallee
      exact ⟨hmem, fun later hlater => hnext.final hmem hlater⟩
    · intro calls hagree s
      rw [hnext.index] at hagree ⊢
      exact Walk.walkBody_congr fun x hx => hagree _ (hbefore x (hcalls hx))

/-- From an entry without a reachable cycle, the known functions that it reaches are analysed once
each, callees first, unless the project cannot be read. -/
theorem run_calleesFirst (fs : Files) (path entry : String) (hne : entry ≠ "")
    (hc : Order.NoCycleFrom (CallGraph.ofProject fs (fs.absolute path)).callees entry) :
    (∃ e p, prepare fs (fs.absolute path) {} = .error e p ∧
      run fs path (some entry) {} = .error e p ∧ p.trace = []) ∨
    ∃ p ids, prepare fs (fs.absolute path) {} = .ok ⟨⟩ p ∧ p.trace = [] ∧
      run fs path (some entry) {} =
        (do ids.forM analyse; onAnalysis Analysis.finish : ProjectM Unit) p ∧
      CalleesFirst (CallGraph.ofProject fs (fs.absolute path)).callees entry p ids := by
  have hends := prepare_ends fs (fs.absolute path)
  cases hp : prepare fs (fs.absolute path) {} with
  | error e p => exact .inl ⟨e, p, rfl, bind_of_error hp, (hends.fault e p hp).trace⟩
  | ok u p =>
    have hprep := hends.value u p hp
    obtain ⟨done, ho, hl, hm⟩ := order_ok hc
    exact .inr ⟨p, p.scheduled done.reverse, rfl, hprep.trace,
      (bind_of_ok hp).trans (bind_of_ok (schedule_ok hne ho)), hprep.calleesFirst hl hm⟩

/-- What is seen of a project before and after its first function is analysed, and of the record of
the function. -/
def firstRun? {α : Type} (fs : Files) (look : Project → Project → Function → α) : Option α :=
  (after? (prepare fs "/p" {})).bind fun p =>
    (after? (analyse 0 p)).bind fun p' => (p'.record? 0).map (look p p')

theorem exists_of_firstRun? {α : Type} {fs : Files} {look : Project → Project → Function → α}
    {r : α} (h : firstRun? fs look = some r) : ∃ p p' f, prepare fs "/p" {} = .ok ⟨⟩ p ∧
      analyse 0 p = .ok ⟨⟩ p' ∧ p'.record? 0 = some f ∧ look p p' f = r := by
  obtain ⟨p, hp, h⟩ := ok_of_bind h
  obtain ⟨p', hp', h⟩ := ok_of_bind h
  obtain ⟨f, hf, h⟩ := Option.map_eq_some_iff.mp h
  exact ⟨p, p', f, hp, hp', hf, h⟩

/-- The definition of a function whose body is some calls. -/
def definitionOf (name : String) (calls : List String) : Node :=
  Walk.definedAs name (calls.map fun callee => .mk { kind := .call, spelling := callee } [] none)

/-- A file in which `main` calls `work` and `log`, and `work` calls `log`. -/
def threeFunctions : Files := Walk.fileOf
  [definitionOf "main" ["work", "log"], definitionOf "work" ["log"],
    definitionOf "log" []]

theorem run_threeFunctions :
    "main" ≠ "" ∧
    Order.NoCycleFrom
      (CallGraph.ofProject threeFunctions (threeFunctions.absolute "p")).callees "main" ∧
    ∃ p ids, prepare threeFunctions (threeFunctions.absolute "p") {} = .ok ⟨⟩ p ∧
      run threeFunctions "p" (some "main") {} =
        (do ids.forM analyse; onAnalysis Analysis.finish : ProjectM Unit) p ∧
      CalleesFirst (CallGraph.ofProject threeFunctions (threeFunctions.absolute "p")).callees
        "main" p ids := by
  have hgraph : CallGraph.ofProject threeFunctions (threeFunctions.absolute "p") =
      ⟨[("main", ⟨["log", "work"]⟩), ("work", ⟨["log"]⟩), ("log", {})]⟩ := by decide +kernel
  have hcycle : Order.NoCycleFrom
      (CallGraph.ofProject threeFunctions (threeFunctions.absolute "p")).callees "main" := by
    rw [hgraph]
    refine Order.noCycleFrom_of_rank
      (fun f => if f = "main" then 2 else if f = "work" then 1 else 0) ?_ "main"
    intro f g hc
    simp only [Order.Calls, CallGraph.callees, Table.get?, Table.lookup] at hc
    grind
  have hread : value? (prepare threeFunctions (threeFunctions.absolute "p") {}) = some ⟨⟩ := by
    decide +kernel
  refine ⟨by decide, hcycle, ?_⟩
  cases run_calleesFirst threeFunctions "p" "main" (by decide) hcycle with
  | inl h =>
    obtain ⟨e, p, hp, _⟩ := h
    rw [hp] at hread
    cases hread
  | inr h =>
    obtain ⟨p, ids, hp, _, hrun, hfirst⟩ := h
    exact ⟨p, ids, hp, hrun, hfirst⟩

end Project

end Footprint
