import Footprint.Proofs.Memory.Changes
import Footprint.Proofs.Memory.Framed
import Footprint.Proofs.Memory.Marked

/-!
# Steps that mind their addresses

A memory owns an address if it has a block there.  A linked memory owns every
address in it but for the targets of pointers, which `Aimed` adds.

`Minds` is for a step on any state with a memory in it.  It says that the step
keeps a property of the state, that nothing which is owned is lost, and that the
step never asks for something that is not there.  It has one memory as a
parameter, from which on the step may be taken.  So the addresses that the step
is given can be those of that memory, and the addresses in its result are those
of the memory at its end.
-/

namespace Footprint

open Memory

/-- An entry of a table with a key set is that of the key or was there before. -/
theorem Table.mem_entries_set {κ ν : Type} [DecidableEq κ] {t : Table κ ν} {k : κ} {v : ν}
    {e : κ × ν} (h : e ∈ (t.set k v).entries) : e = (k, v) ∨ e ∈ t.entries := by
  obtain ⟨entries⟩ := t
  change e ∈ put k v entries at h
  induction entries with
  | nil => exact .inl (List.mem_singleton.mp h)
  | cons e' rest ih =>
    obtain ⟨k', v'⟩ := e'
    unfold put at h
    split at h
    · next hk =>
      rcases List.mem_cons.mp h with rfl | h
      · exact .inl (by rw [hk])
      · exact .inr (List.mem_cons_of_mem _ h)
    · rcases List.mem_cons.mp h with rfl | h
      · exact .inr (List.mem_cons_self ..)
      · exact (ih h).imp_right (List.mem_cons_of_mem _)

namespace Memory

/-- The number is the address of a block. -/
def Owns (m : Memory) (a : Int) : Prop := 0 < a ∧ ∃ b, m.block? a.toNat = some b

/-- The target of a pointer, if it has one, is the address of a block. -/
def OwnsTarget (m : Memory) (target : Option Int) : Prop := ∀ a, target = some a → m.Owns a

/-- The memory is linked, and pointers remember addresses of blocks. -/
structure Aimed (m : Memory) : Prop where
  linked : Linked none m
  target : ∀ id, m.OwnsTarget (m.varOf id).target

section Owns

variable {m m' : Memory} {a : Int}

theorem Owns.exists_nat (h : m.Owns a) : ∃ n : Nat, a = n ∧ ∃ b, m.block? n = some b :=
  ⟨a.toNat, by have := h.1; omega, h.2⟩

variable {owed : Option String}

theorem Linked.owns (h : Linked owed m) {n : Nat} {b : Block}
    (hb : m.block? n = some b) : m.Owns n :=
  ⟨by have := (h.lt_next_of_block hb).1; omega, b, hb⟩

theorem Linked.owns_named (h : Linked owed m) {n : Nat} (hn : (m.nameAt? n).isSome) : m.Owns n := by
  obtain ⟨name, hname⟩ := Option.isSome_iff_exists.mp hn
  obtain ⟨b, hb, _⟩ := Option.map_eq_some_iff.mp hname
  exact h.owns hb

theorem Owns.grows (h : m.Owns a) (hg : Grows m m') : m'.Owns a := by
  obtain ⟨hpos, b, hb⟩ := h
  have hname : m.nameAt? a.toNat = some (m.varOf b.var).name := by rw [nameAt?, hb]; rfl
  obtain ⟨b', hb', _⟩ := Option.map_eq_some_iff.mp (hg.name _ _ hname)
  exact ⟨hpos, b', hb'⟩

theorem OwnsTarget.grows {target : Option Int} (h : m.OwnsTarget target) (hg : Grows m m') :
    m'.OwnsTarget target :=
  fun b hb => (h b hb).grows hg

theorem ownsTarget_none : m.OwnsTarget none := nofun

theorem Owns.target (h : m.Owns a) : m.OwnsTarget (some a) := by
  rintro _ ⟨⟩
  exact h

/-- What a variable remembers stays owned while no pointer is moved. -/
theorem Aimed.after (h : m.Aimed) (ha : After m m')
    (ht : ∀ id, (m'.varOf id).target = (m.varOf id).target) : m'.Aimed :=
  ⟨ha.linked, fun id => by rw [ht]; exact (h.target id).grows ha.grows⟩

theorem aimed_empty : Aimed {} := ⟨linked_empty, fun _ => ownsTarget_none⟩

end Owns

end Memory

/-! ## The calculus -/

variable {σ τ α β : Type}

/-- From `s` the step ends in a state with `I`, in which all that was owned is owned, with a result
that is as `V` says.  It may stop, but not since something is not there. -/
def MindsAt (I : σ → Prop) (view : σ → Memory) (s : σ) (V : α → Memory → Prop)
    (x : EStateM Fault σ α) : Prop :=
  Ends x s (fun a s' => I s' ∧ Grows (view s) (view s') ∧ V a (view s'))
    fun e s' => ¬ e.OutOfBounds ∧ (e ≠ .endless → I s' ∧ Grows (view s) (view s'))

/-- The step minds its addresses from every state with `I` whose memory comes after `m₀`. -/
structure Minds (I : σ → Prop) (view : σ → Memory) (m₀ : Memory) (V : α → Memory → Prop)
    (x : EStateM Fault σ α) : Prop where
  ends : ∀ s, I s → Grows m₀ (view s) → MindsAt I view s V x

section Calculus

variable {I : σ → Prop} {view : σ → Memory} {m₀ m₁ : Memory} {V : α → Memory → Prop}
variable {U : β → Memory → Prop} {x : EStateM Fault σ α} {s : σ} {f : α → EStateM Fault σ β}

/-- A step from a later state. -/
theorem MindsAt.since {s' : σ} (h : MindsAt I view s' V x) (hg : Grows (view s) (view s')) :
    Ends x s' (fun a t => I t ∧ Grows (view s) (view t) ∧ V a (view t)) fun e t => ¬ e.OutOfBounds ∧
      (e ≠ .endless → I t ∧ Grows (view s) (view t)) := by
  refine h.mono ?_ ?_
  · rintro a t ⟨ht, hg', hv⟩
    exact ⟨ht, hg.trans hg', hv⟩
  · rintro e t ⟨he, ht⟩
    exact ⟨he, fun hne => ⟨(ht hne).1, hg.trans (ht hne).2⟩⟩

/-- A step after which more, or something else, is known of the state. -/
theorem MindsAt.bind_to {J : σ → Prop}
    (hx : MindsAt I view s V x) (hIJ : ∀ s', I s' → J s')
    (hf : ∀ a s', I s' → Grows (view s) (view s') → V a (view s') →
      MindsAt J view s' U (f a)) : MindsAt J view s U (x >>= f) := by
  refine Ends.bind (hx.mono ?_ ?_)
  · rintro a s₁ ⟨hs₁, hg₁, hv⟩
    exact (hf a s₁ hs₁ hg₁ hv).since hg₁
  · rintro e s₁ ⟨he, hs₁⟩
    exact ⟨he, fun hne => ⟨hIJ s₁ (hs₁ hne).1, (hs₁ hne).2⟩⟩

theorem MindsAt.bind (hx : MindsAt I view s V x)
    (hf : ∀ a s', I s' → Grows (view s) (view s') → V a (view s') →
      MindsAt I view s' U (f a)) : MindsAt I view s U (x >>= f) :=
  hx.bind_to (fun _ h => h) hf

/-- A step whose result and state are known, before another one. -/
theorem MindsAt.bind_ok {s' : σ} {a : α} (hx : x s = .ok a s')
    (hg : Grows (view s) (view s')) (hf : MindsAt I view s' U (f a)) :
    MindsAt I view s U (x >>= f) :=
  Ends.bind_ok hx (hf.since hg)

namespace Minds

theorem leads {s s' : σ} (h : Minds I view (view s) V x) (hs : I s) (hleads : Leads x s s') :
    I s' := by
  have hends := h.ends s hs (.refl _)
  rcases hleads with ⟨a, hx⟩ | ⟨e, hne, hx⟩
  · exact (hends.value a s' hx).1
  · exact ((hends.fault e s' hx).2 hne).1

theorem mono {V' : α → Memory → Prop} (h : Minds I view m₀ V x)
    (hV : ∀ a m, Grows m₀ m → V a m → V' a m) : Minds I view m₀ V' x :=
  ⟨fun s hs hg => (h.ends s hs hg).mono
    (fun a _ ⟨hI, hg', hv⟩ => ⟨hI, hg', hV a _ (hg.trans hg') hv⟩) fun _ _ he => he⟩

/-- A step that may be taken from a memory on may be taken from a later one on. -/
theorem later (h : Minds I view m₀ V x) (hg : Grows m₀ m₁) : Minds I view m₁ V x :=
  ⟨fun s hs hg' => h.ends s hs (hg.trans hg')⟩

theorem pure {a : α} (h : ∀ m, Grows m₀ m → V a m) :
    Minds I view m₀ V (pure a : EStateM Fault σ α) :=
  ⟨fun _ hs hg => Ends.pure ⟨hs, .refl _, h _ hg⟩⟩

theorem throw {e : Fault} (he : ¬ e.OutOfBounds) :
    Minds I view m₀ V (throw e : EStateM Fault σ α) :=
  ⟨fun _ hs _ => Ends.throw ⟨he, fun _ => ⟨hs, .refl _⟩⟩⟩

theorem bind {f : α → EStateM Fault σ β} (hx : Minds I view m₀ V x)
    (hf : ∀ a m, Grows m₀ m → V a m → Minds I view m U (f a)) :
    Minds I view m₀ U (x >>= f) :=
  ⟨fun s hs hg => (hx.ends s hs hg).bind fun a s' hs' hg' hv =>
    (hf a (view s') (hg.trans hg') hv).ends s' hs' (.refl _)⟩

theorem get_bind {f : σ → EStateM Fault σ β}
    (hf : ∀ s, I s → Grows m₀ (view s) → Minds I view (view s) U (f s)) :
    Minds I view m₀ U (get >>= f) :=
  ⟨fun s hs hg => MindsAt.bind_ok rfl (.refl _) ((hf s hs hg).ends s hs (.refl _))⟩

theorem modify {f : σ → σ} (hI : ∀ s, I s → Grows m₀ (view s) → I (f s))
    (hview : ∀ s, view (f s) = view s) :
    Minds I view m₀ (fun _ _ => True) (modify f : EStateM Fault σ PUnit) :=
  ⟨fun s hs hg => Ends.modify ⟨hI s hs hg, by rw [hview]; exact .refl _, trivial⟩⟩

theorem orFault {y : Except Fault α} (hv : ∀ a, y = .ok a → ∀ m, Grows m₀ m → V a m)
    (he : ∀ e, y = .error e → ¬ e.OutOfBounds) : Minds I view m₀ V (orFault y) := by
  cases y with
  | ok a => exact pure (hv a rfl)
  | error e => exact throw (he e rfl)

theorem forM {f : α → EStateM Fault σ PUnit} :
    ∀ {as : List α} {m₀ : Memory}, (∀ a ∈ as, Minds I view m₀ (fun _ _ => True) (f a)) →
      Minds I view m₀ (fun _ _ => True) (as.forM f)
  | [], _, _ => pure fun _ _ => trivial
  | a :: _, _, h =>
      bind (h a (List.mem_cons_self ..)) fun _ _ hg _ =>
        forM fun b hb => (h b (List.mem_cons_of_mem a hb)).later hg

/-- A step on a part of the state that has the memory in it. -/
theorem zoom {J : τ → Prop} {part : σ → τ} {put : τ → σ → σ} {look : τ → Memory}
    {y : EStateM Fault τ α} (hy : Minds J look m₀ V y) (hlook : ∀ s, look (part s) = view s)
    (hpart : ∀ s, I s → J (part s)) (hput : ∀ t s, I s → J t →
      Grows (view s) (look t) → I (put t s)) (hview : ∀ t s, view (put t s) = look t) :
    Minds I view m₀ V (zoom part put y) := by
  constructor
  intro s hs hg
  have hends := hy.ends (part s) (hpart s hs) (by rw [hlook]; exact hg)
  unfold MindsAt at hends
  simp only [hlook] at hends
  refine Ends.zoom (hends.mono ?_ ?_)
  · rintro a t ⟨ht, hgt, hv⟩
    rw [hview]
    exact ⟨hput t s hs ht hgt, hgt, hv⟩
  · rintro e t ⟨he, ht⟩
    rw [hview]
    exact ⟨he, fun hne => ⟨hput t s hs (ht hne).1 (ht hne).2, (ht hne).2⟩⟩

end Minds

end Calculus

namespace Memory

/-- A step on the memory that minds its addresses. -/
abbrev MindsIn (m₀ : Memory) (V : α → Memory → Prop) (x : MemM α) : Prop :=
  Minds Aimed (fun m => m) m₀ V x

variable {m₀ m m' : Memory} {T : TypeTable}

/-! ## Looking at blocks and changing marks -/

theorem minds_variableAt {a : Int} (h : m₀.Owns a) :
    MindsIn m₀ (fun found m => ∀ id v, found = some (id, v) → m.nameAt? a.toNat = some v.name ∧
      (id < m.vars.size ∧ m.varOf id = v) ∧ m.OwnsTarget v.target) (variableAt a) := by
  constructor
  intro m hm hg
  obtain ⟨n, rfl, b, hb⟩ := (h.grows hg).exists_nat
  refine .of_ok (variableAt_ok hm.linked hb) ⟨hm, .refl _, ?_⟩
  rintro _ _ ⟨⟩
  refine ⟨?_, ⟨hm.linked.var_lt hb, rfl⟩, hm.target b.var⟩
  rw [Int.toNat_natCast, nameAt?, hb]
  rfl

theorem Marked.grows (h : Marked m m') : Grows m m' where
  next := Nat.le_of_eq h.next.symm
  vars := Nat.le_of_eq h.size.symm
  name a n ha := by
    obtain ⟨b, hb, hname⟩ := Option.map_eq_some_iff.mp ha
    obtain ⟨b', hb', hvar⟩ := h.exists_block hb
    have hsame : (m'.varOf b.var).name = (m.varOf b.var).name :=
      Variable.eq_of_unmarked (h.var b.var) fun _ => rfl
    rw [nameAt?, hb', Option.map_some, hvar, hsame, hname]
  var id _ := Variable.eq_of_unmarked (h.var id) fun _ => rfl

theorem Marked.aimed (h : Marked m m') (hm : m.Aimed) : m'.Aimed :=
  hm.after ⟨h.linked, h.grows⟩ fun id =>
    Variable.eq_of_unmarked (g := Variable.target) (h.var id) fun _ => rfl

theorem minds_of_marked {x : MemM α}
    (h : ∀ m, m.Aimed → Grows m₀ m → Runs x m fun _ => Marked m) :
    MindsIn m₀ (fun _ _ => True) x :=
  ⟨fun m hm hg => Ends.mono (h m hm hg)
    (fun _ _ hmark => ⟨hmark.aimed hm, hmark.grows, trivial⟩) fun _ _ hf => hf.elim⟩

section Owned

variable {a : Int} (h : m₀.Owns a)

include h

/-- A step on the block at an address that is owned. -/
theorem minds_of_block {x : Nat → MemM α}
    (hx : ∀ {m : Memory} {n : Nat} {b : Block}, Linked none m → m.block? n = some b →
      Runs (x n) m fun _ => Marked m) : MindsIn m₀ (fun _ _ => True) (x a.toNat) := by
  refine minds_of_marked fun m hm hg => ?_
  obtain ⟨n, rfl, b, hb⟩ := (h.grows hg).exists_nat
  exact hx hm.linked hb

theorem cast_toNat : ((a.toNat : Nat) : Int) = a := by
  have := h.1
  omega

theorem minds_addRef (pointer : String) : MindsIn m₀ (fun _ _ => True) (addRef a pointer) := by
  rw [← cast_toNat h]
  exact minds_of_block h fun hl hb => addRef_marked hl hb pointer

theorem minds_removeRef (pointer : String) :
    MindsIn m₀ (fun _ _ => True) (removeRef a pointer) := by
  rw [← cast_toNat h]
  exact minds_of_block h fun hl hb => removeRef_marked hl hb pointer

theorem minds_read (f : String) : MindsIn m₀ (fun _ _ => True) (read a f) := by
  rw [← cast_toNat h]
  exact minds_of_block h fun hl hb => read_marked hl hb f

theorem minds_write (f : String) : MindsIn m₀ (fun _ _ => True) (write a f) := by
  rw [← cast_toNat h]
  exact minds_of_block h fun hl hb => write_marked hl hb f

end Owned

theorem minds_clearRefs : MindsIn m₀ (fun _ _ => True) clearRefs :=
  minds_of_marked fun _ hm _ => clearRefs_marked hm.linked

/-- A change of a variable that leaves its name, its parts and its target. -/
theorem minds_change (id : VarId) {f : Variable → Variable} (hname : ∀ v, (f v).name = v.name)
    (hparts : ∀ v, (f v).parts = v.parts) (htarget : ∀ v, (f v).target = v.target) :
    MindsIn m₀ (fun _ _ => True) (change id f) := by
  constructor
  intro m hm _
  have hafter := (After.refl hm.linked).setVar id hname hparts
  refine Ends.modify ⟨hm.after hafter fun j => ?_, hafter.grows, trivial⟩
  rw [varOf_setVar]
  split
  · exact htarget _
  · rfl

/-- A pointer is made to remember an address that is owned. -/
theorem minds_remember (id : VarId) {target : Option Int} (h : m₀.OwnsTarget target) :
    MindsIn m₀ (fun _ _ => True) (change id fun v => { v with target }) := by
  constructor
  intro m hm hg
  have hafter := (After.refl hm.linked).setVar id
    (f := fun v => { v with target }) (fun _ => rfl) fun _ => rfl
  refine Ends.modify ⟨⟨hafter.linked, fun j => ?_⟩, hafter.grows, trivial⟩
  rw [varOf_setVar]
  split
  · exact (h.grows hg).grows hafter.grows
  · exact (hm.target j).grows hafter.grows

/-! ## Layouts -/

section Targets

variable {P : Slot → Prop} {D : Prop}

theorem target_notePart (m : Memory) (id j : VarId) (s : Slot) (a : Nat) :
    ((m.notePart id s a).varOf j).target = (m.varOf j).target := by
  rw [varOf_notePart]
  split
  · rfl
  · rfl

theorem target_of_le {id : VarId} (h : m.vars.size ≤ id) : (m.varOf id).target = none := by
  rw [varOf, Array.getElem?_eq_none h]
  rfl

theorem Change.target (h : Change T P D m m') (id : VarId) :
    (m'.varOf id).target = (m.varOf id).target := by
  cases h with
  | note => exact target_notePart ..
  | add =>
    rw [varOf_withPart, size_notePart]
    split
    · next he => rw [target_of_le (Nat.le_of_eq he.symm)]; rfl
    · exact target_notePart ..

theorem Changes.target (h : Changes T P D m m') (id : VarId) :
    (m'.varOf id).target = (m.varOf id).target := by
  induction h with
  | refl => rfl
  | tail _ hchange ih => exact (hchange.target id).trans ih

theorem Changes.aimed (h : Changes T P D m m') (hm : m.Aimed) : m'.Aimed :=
  hm.after (h.after hm.linked) h.target

end Targets

/-- A name that is found has an address that is owned. -/
theorem minds_resolve (T : TypeTable) (name : String) :
    MindsIn m₀ (fun found m => ∀ c : Nat, found = some c → m.Owns c) (resolve T name) := by
  constructor
  intro m hm _
  refine (resolve_completes (admits_all T) name hm.linked).mono ?_ ?_
  · rintro found m' ⟨hcompletes, hfound⟩
    have hafter := hcompletes.changes.after hm.linked
    exact ⟨hcompletes.changes.aimed hm, hafter.grows,
      fun c hc => hafter.linked.owns_named (hfound c hc).1⟩
  · rintro e m' ⟨he, hchanges⟩
    exact ⟨he, fun hne => ⟨(hchanges hne).aimed hm, ((hchanges hne).after hm.linked).grows⟩⟩

/-- A variable without parts and target is declared. -/
theorem minds_declare {v : Variable} (hparts : v.parts = {}) (htarget : v.target = none) :
    MindsIn m₀ (fun id m => id < m.vars.size ∧ m.varOf id = v) (declare v) := by
  constructor
  intro m hm _
  have hafter : After m { m with vars := m.vars.push v } :=
    ⟨hm.linked.declare hparts, grows_declare hm.linked v⟩
  refine Ends.bind (Ends.get (Ends.bind (Ends.set (Ends.pure ⟨hm.after hafter fun id => ?_,
    hafter.grows, by simp, ?_⟩))))
  · rw [varOf_push]
    split
    · next he => rw [htarget, target_of_le (Nat.le_of_eq he.symm)]
    · rfl
  · rw [varOf_push, if_pos rfl]

variable {id : VarId} {noted : Table String Nat} {pointers : Table String (Option Int)}

theorem Aimed.withRoot (hm : m.Aimed) (hid : id < m.vars.size) : (m.withRoot id).Aimed :=
  hm.after ⟨hm.linked.withRoot hid, grows_withRoot hm.linked id⟩ fun _ => rfl

theorem asArray_target (T : TypeTable) (v : Variable) : (asArray T v).target = v.target := by
  unfold asArray
  split <;> rfl

/-- A declared variable is laid out. -/
theorem mindsAt_allocate (T : TypeTable) (hm : m.Aimed) (hid : id < m.vars.size) :
    MindsAt Aimed (fun m => m) m (fun (a : Nat) m => m.Owns a)
      (allocate T (m.varOf id).name (m.varOf id).type 0 (some id)) := by
  have hroot := hm.withRoot hid
  have hgroot := grows_withRoot hm.linked id
  refine (allocate_root_completes (admits_all T) hm.linked hid False.elim).mono ?_ ?_
  · rintro _ m' ⟨rfl, hcompletes, _⟩
    have hafter := hcompletes.changes.after hroot.linked
    exact ⟨hcompletes.changes.aimed hroot, hgroot.trans hafter.grows,
      hafter.linked.owns (hcompletes.changes.block (block?_withRoot hm.linked id))⟩
  · rintro e m' ⟨he, hchanges⟩
    exact ⟨he, fun hne => ⟨(hchanges hne).aimed hroot,
      hgroot.trans ((hchanges hne).after hroot.linked).grows⟩⟩

theorem minds_allocateRoot (T : TypeTable) (hid : id < m₀.vars.size) :
    MindsIn m₀ (fun (a : Nat) m => m.Owns a) (allocateRoot T id) := by
  constructor
  intro m hm hg
  have hid := Nat.lt_of_lt_of_le hid hg.vars
  refine MindsAt.bind_ok rfl (.refl _) ((mindsAt_allocate T hm hid).bind ?_)
  intro a m₁ hm₁ _ ha
  have hnote : MindsIn m₁ (fun (a : Nat) m => m.Owns a)
      (do change id (fun v => { v with address := a }); return a) :=
    .bind (minds_change id (fun _ => rfl) (fun _ => rfl) fun _ => rfl) fun _ _ hg _ =>
      .pure fun _ hg' => ha.grows (hg.trans hg')
  exact hnote.ends m₁ hm₁ (.refl _)

theorem minds_allocateGlobals (T : TypeTable) : ∀ {ids : List VarId} {m₀ : Memory},
    (∀ id ∈ ids, id < m₀.vars.size) → MindsIn m₀ (fun _ _ => True) (allocateGlobals T ids)
  | [], _, _ => .pure fun _ _ => trivial
  | id :: _, _, h =>
      .bind (minds_allocateRoot T (h id (List.mem_cons_self ..))) fun _ _ hg _ =>
        minds_allocateGlobals T fun j hj =>
          Nat.lt_of_lt_of_le (h j (List.mem_cons_of_mem id hj)) hg.vars

/-! ## Parameters -/

theorem minds_allocatePointee (T : TypeTable) (v : Variable) :
    MindsIn m₀ (fun (a : Nat) m => m.Owns a) (allocatePointee T v) := by
  refine ⟨fun m hm hg => ?_⟩
  refine ((minds_declare (v := pointeeVariable T v) rfl rfl).ends m hm hg).bind ?_
  rintro id m₁ hm₁ _ ⟨hid, hvar⟩
  have hlays := mindsAt_allocate T hm₁ hid
  rw [hvar] at hlays
  exact hlays

/-- The blocks that pointers are taken to point to are blocks of the memory. -/
def OwnsNoted (m : Memory) (noted : Table String Nat) : Prop :=
  ∀ e ∈ noted.entries, m.Owns (e.2 : Nat)

theorem OwnsNoted.grows (h : m.OwnsNoted noted) (hg : Grows m m') : m'.OwnsNoted noted :=
  fun e he => (h e he).grows hg

theorem OwnsNoted.set (h : m.OwnsNoted noted) {a : Nat}
    (ha : m.Owns a) (name : String) : m.OwnsNoted (noted.set name a) := by
  intro e he
  rcases Table.mem_entries_set he with rfl | he
  · exact ha
  · exact h e he

theorem minds_allocateParam (T : TypeTable) (hn : m₀.OwnsNoted noted) (hid : id < m₀.vars.size) :
    MindsIn m₀ (fun noted m => m.OwnsNoted noted) (allocateParam T noted id) := by
  refine .bind (minds_allocateRoot T hid) fun _ m₁ hg₁ _ => .get_bind fun m₂ _ hg₂ => ?_
  dsimp only
  split
  · refine .bind (minds_allocatePointee T _) fun a m₃ hg₃ ha => ?_
    refine .bind (minds_addRef ha _) fun _ m₄ hg₄ _ => .pure fun m₅ hg₅ => ?_
    exact (hn.grows (hg₁.trans (hg₂.trans (hg₃.trans (hg₄.trans hg₅))))).set
      (ha.grows (hg₄.trans hg₅)) _
  · exact .pure fun m₃ hg₃ => hn.grows (hg₁.trans (hg₂.trans hg₃))

theorem minds_allocateFunctionParams (T : TypeTable) :
    ∀ {ids : List VarId} {m₀ : Memory} {noted : Table String Nat}, m₀.OwnsNoted noted →
      (∀ id ∈ ids, id < m₀.vars.size) →
      MindsIn m₀ (fun noted m => m.OwnsNoted noted) (allocateFunctionParams T noted ids)
  | [], _, _, hn, _ => .pure fun _ hg => hn.grows hg
  | id :: ids, m₀, noted, hn, hids => by
      have hrest : ∀ {m : Memory}, Grows m₀ m → ∀ j ∈ ids, j < m.vars.size := fun hg j hj =>
        Nat.lt_of_lt_of_le (hids j (List.mem_cons_of_mem id hj)) hg.vars
      refine .get_bind fun m₁ _ hg₁ => ?_
      dsimp only
      split
      · exact minds_allocateFunctionParams T (hn.grows hg₁) (hrest hg₁)
      · refine .bind (minds_change id (asArray_name T) (asArray_parts T) (asArray_target T)) ?_
        intro _ m₂ hg₂ _
        have hg := hg₁.trans hg₂
        refine .bind (minds_allocateParam T (hn.grows hg)
          (Nat.lt_of_lt_of_le (hids id (List.mem_cons_self ..)) hg.vars)) fun noted m₃ hg₃ hn₃ => ?_
        exact minds_allocateFunctionParams T hn₃ (hrest (hg.trans hg₃))

/-! ## Initialisers -/

/-- Every target in a table is the address of a block. -/
def OwnsTargets (m : Memory) (pointers : Table String (Option Int)) : Prop :=
  ∀ e ∈ pointers.entries, m.OwnsTarget e.2

theorem OwnsTargets.grows (h : m.OwnsTargets pointers)
    (hg : Grows m m') : m'.OwnsTargets pointers :=
  fun e he => (h e he).grows hg

theorem OwnsTargets.set (h : m.OwnsTargets pointers) {target : Option Int}
    (ht : m.OwnsTarget target) (name : String) : m.OwnsTargets (pointers.set name target) := by
  intro e he
  rcases Table.mem_entries_set he with rfl | he
  · exact ht
  · exact h e he

theorem OwnsTargets.get? (h : m.OwnsTargets pointers)
    (name : String) : m.OwnsTarget (pointers.get? name).join := by
  cases hget : pointers.get? name with
  | none => exact ownsTarget_none
  | some target => exact h _ (Table.mem_of_lookup hget)

/-- The address that an initialiser gives is owned. -/
theorem minds_initialTarget (T : TypeTable) (h : m₀.OwnsTargets pointers) (n : Node) :
    MindsIn m₀ (fun target m => m.OwnsTarget target) (initialTarget T pointers n) := by
  rw [initialTarget_eq]
  split
  · exact .pure fun _ hg => (h.get? _).grows hg
  · refine .bind (minds_resolve T _) fun found m₁ _ hfound => .pure fun m₂ hg a ha => ?_
    obtain ⟨c, hc, rfl⟩ := Option.map_eq_some_iff.mp ha
    exact (hfound c hc).grows hg
  · exact .pure fun _ _ => ownsTarget_none

/-! ## Marks of wholes -/

theorem liftMarks_target (m : Memory) (a : Nat) (id : VarId) :
    ((m.liftMarks a).varOf id).target = (m.varOf id).target := by
  unfold liftMarks
  split
  · rfl
  · split
    · rfl
    · rw [varOf_setVar]
      split
      · rfl
      · rfl

/-- The marks of the parts of a linked memory are collected. -/
theorem minds_collect : MindsIn m₀ (fun _ _ => True) collect := by
  constructor
  intro m hm _
  obtain ⟨parts, hparts, _⟩ := hm.linked.exists_groupParts
  obtain ⟨n, hn⟩ : ∃ n, collect m = .ok ⟨⟩ n := ⟨_, collect_eq hparts⟩
  have hafter : m.After n := (collect_ends (J := m.After)
    (keeps_liftMarks fun id _ h => h.setVar id) (.refl hm.linked)).value _ _ hn
  have htarget (id : VarId) : (n.varOf id).target = (m.varOf id).target :=
    (collect_ends (J := fun n => (n.varOf id).target = (m.varOf id).target)
      (fun h a => (liftMarks_target _ a id).trans h) rfl).value _ _ hn
  exact .of_ok hn ⟨hm.after hafter htarget, hafter.grows, trivial⟩

end Memory

/-! ## Parameters that are used as arrays -/

namespace Scan

open Memory (MindsIn Grows minds_change)

variable {m₀ : Memory}

theorem minds_scan (callee? : String → Option Function) (params : Params) (n : Node) :
    MindsIn m₀ (fun _ _ => True) (scan callee? params n) := by
  constructor
  intro m hm _
  have hflags : Flagging fun m' => m'.Aimed ∧ Grows m m' := by
    intro m₁ id length hm₁
    have hchange := @minds_change m₁ id (fun v =>
      { v with usedAsArray := true, usedLength := length v }) (fun _ => rfl) (fun _ => rfl)
        fun _ => rfl
    obtain ⟨haimed, hgrows, _⟩ := (hchange.ends m₁ hm₁.1 (.refl m₁)).value _ _ rfl
    exact ⟨haimed, hm₁.2.trans hgrows⟩
  exact (hflags.scan callee? params n m ⟨hm, .refl m⟩).mono
    (fun _ _ hm' => ⟨hm'.1, hm'.2, trivial⟩) fun _ _ he => ⟨he.1, fun _ => he.2⟩

/-- The name of a parameter says which function it belongs to. -/
theorem paramsOf_inBounds {m : Memory} : ∀ {ids : List VarId} {found : Params} {e : Fault},
    (∀ id ∈ ids, ∃ name, Text.after? ">" (m.varOf id).name = some name) →
      paramsOf m found ids = .error e → ¬ e.OutOfBounds
  | id :: ids, found, e, howned, h => by
      have hrest := fun j hj => howned j (List.mem_cons_of_mem id hj)
      obtain ⟨name, hname⟩ := howned id (List.mem_cons_self ..)
      unfold paramsOf at h
      dsimp only at h
      split at h
      · rw [hname] at h
        exact paramsOf_inBounds hrest h
      · exact paramsOf_inBounds hrest h

/-- The parameters of a function have names that say so. -/
theorem minds_scanFunction (callee? : String → Option Function) {f : Function}
    (h : ∀ id ∈ f.vars.values, id < m₀.vars.size ∧
      ∃ name, Text.after? ">" (m₀.varOf id).name = some name) :
    MindsIn m₀ (fun _ _ => True) (scanFunction callee? f) := by
  refine .get_bind fun m _ hg => .bind (V := fun _ _ => True)
    (.orFault (fun _ _ _ _ => trivial) fun e he => paramsOf_inBounds ?_ he) fun params m₁ _ _ => ?_
  · intro id hid
    obtain ⟨hlt, name, hname⟩ := h id hid
    exact ⟨name, by rw [hg.var id hlt]; exact hname⟩
  · split
    · split
      · exact .pure fun _ _ => trivial
      · exact minds_scan callee? params _
    · exact .pure fun _ _ => trivial

end Scan

end Footprint
