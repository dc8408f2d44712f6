import Footprint.Proofs.StraightLine.Tokens

/-!
# What the state of a walk says about a straight-line body

`Sim` ties the memory and the table of pointers to the declared variables and
their targets.  Every declared variable has a block under its full name.  No
name in a body has two meanings.  Where a pointer points is what the table says,
and the pointer variable itself remembers nothing that the table has forgotten.

`Logged` ties the record of the function to the accesses so far.

The lookups of the walk change nothing, and `Sim` says what they give.
-/

namespace Footprint.StraightLine

open Walk

open Memory (Linked Marked)

/-- The address is that of the named target, which is no pointer. -/
def Aims (m : Memory) (target : Option Int) : Option String → Prop
  | none => target = none
  | some t => ∃ a id, target = some (Int.ofNat a) ∧ m.At t a id ∧
      (m.varOf id).isPointer = false

/-- The memory and the table of pointers agree with the declared variables and their targets.  A
variable that is declared in the form `other` may have any form: nothing is said about its use.
Apart from the declared variables, only the given ones have full names in the function. -/
structure Sim (f : String) (pointees : List String) (Γ : Decls) (τ : Targets String) (m : Memory)
    (ps : Table String (Option Int)) : Prop where
  linked : Linked none m
  bound : ∀ x r, Γ x = some r → ∃ a id, m.At (x.full f) a id ∧ ((m.varOf id).form = r ∨ r = .other)
  named : ∀ x r, Γ (.own x) = some r → IsName x
  unowned : ∀ x r, Γ (.own x) = some r → m.names.get? x = none
  unknown : ∀ x, IsName x → Γ (.global x) = none → m.names.get? x = none
  apart : ∀ x r, Γ (.global x) = some r → ∀ y, x ≠ ownedName f y
  owned : ∀ x a id, m.At (ownedName f x) a id → Γ (.own x) = none →
    x ∈ pointees ∧ (m.varOf id).isPointer = false
  aims : ∀ p, Γ p = some .pointer → Aims m (ps.get? (p.full f)).join (τ p)
  remembered : ∀ p a id, Γ p = some .pointer → m.At (p.full f) a id →
    (ps.get? (p.full f)).join = none → (m.varOf id).target = none
  keys : ∀ k t, ps.get? k = some t → ∃ a id, m.At k a id ∧ (m.varOf id).isPointer = true

variable {v : Variable} {m m' : Memory} {target : Option Int}

theorem form_pointer : v.form = .pointer ↔ v.isPointer = true := by
  unfold Variable.form
  split
  · next h => simp [h]
  · next h =>
    split
    · simp [h]
    · simp [h]

theorem not_pointer_of_form (h : v.form = .scalar) : v.isPointer = false := by
  rw [← Bool.not_eq_true, ← form_pointer, h]
  decide

theorem kind_of_form (h : v.form = .scalar) : v.kind = .builtin := by
  unfold Variable.form at h
  split at h
  · cases h
  · split at h
    · assumption
    · cases h

theorem Aims.marked (hm : Marked m m') :
    ∀ {t : Option String}, Aims m target t → Aims m' target t
  | none, h => h
  | some _, ⟨a, id, ht, hat, hp⟩ =>
      ⟨a, id, ht, hat.marked hm, (Variable.eq_of_unmarked (hm.var id) fun _ => rfl).trans hp⟩

theorem Aims.keep
    (hm : ∀ {n a id}, m.At n a id → m'.At n a id ∧ m'.varOf id = m.varOf id) :
    ∀ {t : Option String}, Aims m target t → Aims m' target t
  | none, h => h
  | some _, ⟨a, id, ht, hat, hp⟩ => ⟨a, id, ht, (hm hat).1, (hm hat).2.symm ▸ hp⟩

section Sim

variable {f : String} {pointees : List String} {Γ : Decls} {τ : Targets String} {m : Memory}
variable {ps : Table String (Option Int)}

/-- Marks do not matter. -/
theorem Sim.marked {m' : Memory} (h : Sim f pointees Γ τ m ps) (hm : Marked m m') :
    Sim f pointees Γ τ m' ps where
  linked := hm.linked
  bound x r hx := by
    obtain ⟨a, id, hat, hform⟩ := h.bound x r hx
    exact ⟨a, id, hat.marked hm,
      hform.imp_left (Variable.eq_of_unmarked (hm.var id) fun _ => rfl).trans⟩
  named := h.named
  unowned x r hx := by rw [hm.names]; exact h.unowned x r hx
  unknown x hx hΓ := by rw [hm.names]; exact h.unknown x hx hΓ
  apart := h.apart
  owned x a id hat hΓ := by
    obtain ⟨hmem, hp⟩ := h.owned x a id (hat.of_marked hm) hΓ
    exact ⟨hmem, (Variable.eq_of_unmarked (hm.var id) fun _ => rfl).trans hp⟩
  aims p hp := (h.aims p hp).marked hm
  remembered p a id hp hat hnone :=
    (Variable.eq_of_unmarked (hm.var id) fun _ => rfl).trans
      (h.remembered p a id hp (hat.of_marked hm) hnone)
  keys k t hk := by
    obtain ⟨a, id, hat, hp⟩ := h.keys k t hk
    exact ⟨a, id, hat.marked hm, (Variable.eq_of_unmarked (hm.var id) fun _ => rfl).trans hp⟩

theorem Sim.own_of_global (h : Sim f pointees Γ τ m ps) {x : String} {r : Form}
    (hx : Γ (.global x) = some r) : Γ (.own x) = none := by
  obtain ⟨a, id, hat, _⟩ := h.bound (.global x) r hx
  cases hown : Γ (.own x) with
  | none => rfl
  | some r' =>
    have hnone := h.unowned x r' hown
    rw [show m.names.get? x = some a from hat.address] at hnone
    cases hnone

/-- Different variables have different full names. -/
theorem Sim.full_inj (h : Sim f pointees Γ τ m ps) {x y : Var} {r r' : Form} (hx : Γ x = some r)
    (hy : Γ y = some r') (he : x.full f = y.full f) : x = y := by
  cases x with
  | global x =>
    cases y with
    | global y => exact congrArg Var.global he
    | own y => exact absurd he (h.apart x r hx y)
  | own x =>
    cases y with
    | global y => exact absurd he.symm (h.apart y r' hy x)
    | own y => exact congrArg Var.own (ownedName_inj.mp he)

end Sim

/-! ## Lookups -/

section Lookups

variable {s : Scope} {w : Walk} {n : String} {a : Nat} {id : VarId} {x p : Var}

theorem addressOf_at (hne : n ≠ "")
    (hat : w.memory.At n a id) : addressOf s n w = .ok (some a) w :=
  onMemory_ok (Memory.resolve_known s.types hne hat.address)

theorem addressOf_none (hne : n ≠ "")
    (hplain : ∀ c ∈ n.toList, c ≠ '.' ∧ c ≠ '[' ∧ c ≠ '-') (h : w.memory.names.get? n = none) :
    addressOf s n w = .ok none w :=
  onMemory_ok (Memory.resolve_unknown s.types hne hplain h)

theorem variableAt_at (hl : Linked none w.memory) (hat : w.memory.At n a id) :
    variableAt (a : Int) w = .ok (some (id, w.memory.varOf id)) w :=
  onMemory_ok (hat.variableAt hl)

theorem variableOf_at (hl : Linked none w.memory)
    (hne : n ≠ "") (hat : w.memory.At n a id) :
    variableOf s n w = .ok (some (id, w.memory.varOf id)) w :=
  (bind_of_ok (addressOf_at hne hat)).trans (variableAt_at hl hat)

theorem pointerNamed_none (ha : addressOf s n w = .ok none w) :
    pointerNamed s n w = .ok none w :=
  bind_of_ok ha

theorem pointerNamed_at (hl : Linked none w.memory)
    (hne : n ≠ "") (hat : w.memory.At n a id) :
    pointerNamed s n w =
      .ok (if (w.memory.varOf id).isPointer then some n else none) w := by
  refine (bind_of_ok (addressOf_at hne hat)).trans ((bind_of_ok (variableAt_at hl hat)).trans ?_)
  show EStateM.Result.ok
    (if (w.memory.varOf id).isPointer then some (w.memory.varOf id).name else none) w = _
  rw [hat.name hl]

/-- A variable with a block is found by its name, if no other one has the name. -/
theorem addressIn_at (hx : IsName x.name) (hat : w.memory.At (x.full s.name) a id)
    (hown : ∀ y, x = .own y → w.memory.names.get? y = none) :
    addressIn s x.name w = .ok (some a) w := by
  cases x with
  | global x => exact bind_of_ok (addressOf_at hx.1 hat)
  | own x =>
    refine (bind_of_ok (addressOf_none hx.1 hx.plain (hown x rfl))).trans ?_
    exact addressOf_at (ownedName_ne_empty _ _) hat

theorem not_isEmpty (hn : n ≠ "") : ¬ n.isEmpty = true := by simpa using hn

/-- The key of an own pointer comes first. -/
theorem pointerKey_own {key : String} {w' : Walk} (hn : n ≠ "")
    (h : pointerNamed s (ownedName s.name n) w = .ok (some key) w') :
    pointerKey s n w = .ok (some key) w' := by
  rw [pointerKey, if_neg (not_isEmpty hn)]
  exact bind_of_ok h

/-- A name that no pointer has is no key. -/
theorem pointerKey_none {w₁ w₂ : Walk} (hn : n ≠ "")
    (hown : pointerNamed s (ownedName s.name n) w = .ok none w₁)
    (hname : pointerNamed s n w₁ = .ok none w₂)
    (hkeys : w₂.pointers.contains (ownedName s.name n) = false ∧ w₂.pointers.contains n = false) :
    pointerKey s n w = .ok none w₂ := by
  rw [pointerKey, if_neg (not_isEmpty hn)]
  refine (bind_of_ok hown).trans ((bind_of_ok hname).trans ((bind_of_ok rfl).trans ?_))
  rw [hkeys.1, hkeys.2]
  rfl

/-- The target of a pointer is what the table says, or else what its variable remembers. -/
theorem targetOf_eq {key : String} (hne : key ≠ "") (w : Walk) :
    targetOf s key w = match (w.pointers.get? key).join with
      | some a => .ok (some a) w
      | none => rememberedTarget s key w := by
  rw [targetOf, if_neg (not_isEmpty hne)]
  refine (bind_of_ok rfl).trans ?_
  cases (w.pointers.get? key).join with
  | none => rfl
  | some a => rfl

/-- The key of a pointer with a block is its full name, if no own pointer hides it. -/
theorem pointerKey_at (hl : Linked none w.memory) (hp : IsName p.name)
    (hat : w.memory.At (p.full s.name) a id) (hpointer : (w.memory.varOf id).isPointer = true)
    (hown : ∀ x, p = .global x → pointerNamed s (ownedName s.name x) w = .ok none w) :
    pointerKey s p.name w = .ok (some (p.full s.name)) w := by
  cases p with
  | own p =>
    have hnamed := pointerNamed_at (s := s) hl (ownedName_ne_empty _ _) hat
    rw [hpointer] at hnamed
    exact pointerKey_own hp.1 hnamed
  | global p =>
    rw [pointerKey, if_neg (not_isEmpty hp.1)]
    refine (bind_of_ok (hown p rfl)).trans ?_
    have hnamed := pointerNamed_at (s := s) hl hp.1 hat
    rw [hpointer] at hnamed
    exact bind_of_ok hnamed

/-- It is what the table says, if its variable remembers nothing more. -/
theorem targetOf_at (hl : Linked none w.memory) {key : String} (hkey : key ≠ "")
    (hat : w.memory.At key a id)
    (hremembered : (w.pointers.get? key).join = none →
      remembered (some (id, w.memory.varOf id)) = none) :
    targetOf s key w = .ok (w.pointers.get? key).join w := by
  rw [targetOf_eq hkey]
  cases ht : (w.pointers.get? key).join with
  | some t => rfl
  | none =>
    refine (bind_of_ok (variableOf_at hl hkey hat)).trans ?_
    rw [hremembered ht]
    rfl

theorem full_ne_empty {f : String} (hx : IsName x.name) : x.full f ≠ "" := by
  cases x with
  | global x => exact hx.1
  | own x => exact ownedName_ne_empty f x

variable {pointees : List String} {Γ : Decls} {τ : Targets String} {r : Form}

/-- The address of a declared variable. -/
theorem Sim.addressIn (h : Sim s.name pointees Γ τ w.memory w.pointers) (hx : x.Is Γ r)
    (hr : r ≠ .other) : ∃ a id, w.memory.At (x.full s.name) a id ∧ (w.memory.varOf id).form = r ∧
    addressIn s x.name w = .ok (some a) w := by
  obtain ⟨a, id, hat, hform⟩ := h.bound x r hx.2
  refine ⟨a, id, hat, hform.resolve_right hr, addressIn_at hx.1 hat ?_⟩
  rintro y rfl
  exact h.unowned y r hx.2

/-- A name that is not that of a pointer. -/
theorem Sim.pointerNamed_none (h : Sim s.name pointees Γ τ w.memory w.pointers)
    (hne : n ≠ "") (hplain : ∀ c ∈ n.toList, c ≠ '.' ∧ c ≠ '[' ∧ c ≠ '-')
    (hp : ∀ a id, w.memory.At n a id → (w.memory.varOf id).isPointer = false) :
    pointerNamed s n w = .ok none w := by
  cases ha : w.memory.names.get? n with
  | none => exact bind_of_ok (addressOf_none hne hplain ha)
  | some a =>
    obtain ⟨id, hat⟩ := h.linked.exists_at ha
    rw [pointerNamed_at h.linked hne hat, hp a id hat]
    rfl

/-- The key of a declared pointer is its full name. -/
theorem Sim.pointerKey_pointer (h : Sim s.name pointees Γ τ w.memory w.pointers)
    (hf : IsName s.name) (hp : p.Is Γ .pointer) :
    pointerKey s p.name w = .ok (some (p.full s.name)) w := by
  obtain ⟨a, id, hat, hform⟩ := h.bound p .pointer hp.2
  refine pointerKey_at h.linked hp.1 hat (form_pointer.mp (hform.resolve_right (by decide))) ?_
  rintro p rfl
  exact h.pointerNamed_none (ownedName_ne_empty s.name p) (ownedName_plain hf hp.1)
    fun a id hat => (h.owned p a id hat (h.own_of_global hp.2)).2

/-- A declared scalar is no pointer, with or without the function before its name. -/
theorem Sim.not_pointer_name (h : Sim s.name pointees Γ τ w.memory w.pointers)
    (hx : x.Is Γ .scalar) :
    (∀ a id, w.memory.At (ownedName s.name x.name) a id → (w.memory.varOf id).isPointer = false) ∧
      ∀ a id, w.memory.At x.name a id → (w.memory.varOf id).isPointer = false := by
  obtain ⟨a₀, id₀, hat₀, hform⟩ := h.bound x .scalar hx.2
  have hform := hform.resolve_right (by decide)
  cases x with
  | own x =>
    refine ⟨?_, ?_⟩
    · intro a id hat
      obtain ⟨rfl, rfl⟩ := hat.unique hat₀
      exact not_pointer_of_form hform
    · intro a id hat
      have hnone := h.unowned x .scalar hx.2
      rw [show w.memory.names.get? x = some a from hat.address] at hnone
      cases hnone
  | global x =>
    refine ⟨?_, ?_⟩
    · intro a id hat
      exact (h.owned x a id hat (h.own_of_global hx.2)).2
    · intro a id hat
      obtain ⟨rfl, rfl⟩ := hat.unique hat₀
      exact not_pointer_of_form hform

/-- A declared scalar has no key. -/
theorem Sim.pointerKey_scalar (h : Sim s.name pointees Γ τ w.memory w.pointers) (hf : IsName s.name)
    (hx : x.Is Γ .scalar) : pointerKey s x.name w = .ok none w := by
  obtain ⟨hown, hbare⟩ := h.not_pointer_name hx
  have habsent : ∀ n, (∀ a id, w.memory.At n a id → (w.memory.varOf id).isPointer = false) →
      w.pointers.contains n = false := by
    intro n hn
    refine Bool.eq_false_iff.mpr fun hc => ?_
    obtain ⟨t, ht⟩ := Option.isSome_iff_exists.mp hc
    obtain ⟨a, id, hat, hp⟩ := h.keys n t ht
    rw [hn a id hat] at hp
    cases hp
  have hkey := h.pointerNamed_none (ownedName_ne_empty s.name x.name)
    (ownedName_plain hf hx.1) hown
  exact pointerKey_none hx.1.1 hkey (h.pointerNamed_none hx.1.1 hx.1.plain hbare)
    ⟨habsent _ hown, habsent _ hbare⟩

/-- What a pointer variable remembers is forgotten with its target. -/
theorem Sim.remembered_none (h : Sim s.name pointees Γ τ w.memory w.pointers) (hp : p.Is Γ .pointer)
    (hat : w.memory.At (p.full s.name) a id) (ht : (w.pointers.get? (p.full s.name)).join = none) :
    Walk.remembered (some (id, w.memory.varOf id)) = none := by
  simp [Walk.remembered, Variable.liveTarget, h.remembered p a id hp.2 hat ht]

theorem Sim.targetOf (h : Sim s.name pointees Γ τ w.memory w.pointers) (hp : p.Is Γ .pointer) :
    targetOf s (p.full s.name) w = .ok (w.pointers.get? (p.full s.name)).join w := by
  obtain ⟨a, id, hat, _⟩ := h.bound p .pointer hp.2
  exact targetOf_at h.linked (full_ne_empty hp.1) hat (h.remembered_none hp hat)

/-- A declared pointer points nowhere, or to a block that is no pointer. -/
theorem Sim.target_cases (h : Sim s.name pointees Γ τ w.memory w.pointers) (hp : p.Is Γ .pointer) :
    ((w.pointers.get? (p.full s.name)).join = none ∧ τ p = none) ∨
    ∃ t a id, (w.pointers.get? (p.full s.name)).join = some (Int.ofNat a) ∧ τ p = some t ∧
    w.memory.At t a id ∧ (w.memory.varOf id).isPointer = false := by
  have haims := h.aims p hp.2
  cases ht : τ p with
  | none =>
    rw [ht] at haims
    exact .inl ⟨haims, rfl⟩
  | some t =>
    rw [ht] at haims
    obtain ⟨a, id, hjoin, hat, hvar⟩ := haims
    exact .inr ⟨t, a, id, hjoin, rfl, hat, hvar⟩

end Lookups

/-! ## Accesses -/

theorem readFirst_append {α : Type} (n : α) (es es' : List (Access α)) :
    ReadFirst n (es ++ es') ↔ ReadFirst n es ∨ (Access.write n ∉ es ∧ ReadFirst n es') := by
  induction es with
  | nil => simp [ReadFirst]
  | cons e es ih =>
    cases e with
    | read m =>
      simp only [List.cons_append, ReadFirst, ih, List.mem_cons]
      grind
    | write m =>
      simp only [List.cons_append, ReadFirst, ih, List.mem_cons, Access.write.injEq]
      grind

theorem readFirst_map_read {α : Type} (n : α) (ns : List α) :
    ReadFirst n (ns.map .read) ↔ n ∈ ns := by
  induction ns with
  | nil => simp [ReadFirst]
  | cons m ns ih => simp [ReadFirst, ih, eq_comm]

/-- The access that a use of a name is. -/
def Access.of (n : String) : Use → Access String
  | .read => .read n
  | .write => .write n

/-- The record of the function holds the accesses so far, besides what it held at the start. -/
structure Logged (f₀ : Function) (root : Nat) (es : List (Access String)) (w : Walk) : Prop where
  record : ∃ g, w.functions[root]? = some g ∧
    (∀ n, n ∈ g.reads ↔ n ∈ f₀.reads ∨ ReadFirst n es) ∧
    ∀ n, n ∈ g.writes ↔ n ∈ f₀.writes ∨ Access.write n ∈ es
  written : ∀ n, n ∈ w.written ↔ Access.write n ∈ es

section Logged

variable {f₀ : Function} {root : Nat} {es : List (Access String)} {w w' : Walk} {n : String}

/-- Neither the memory nor the pointers matter to the record. -/
theorem Logged.of_eq (h : Logged f₀ root es w) (hf : w'.functions = w.functions)
    (hw : w'.written = w.written) : Logged f₀ root es w' :=
  ⟨hf ▸ h.record, hw ▸ h.written⟩

/-- The order of accesses matters only as far as first reads and writes go. -/
theorem Logged.congr {es' : List (Access String)} (h : Logged f₀ root es w)
    (hr : ∀ n, ReadFirst n es' ↔ ReadFirst n es)
    (hw : ∀ n, Access.write n ∈ es' ↔ Access.write n ∈ es) : Logged f₀ root es' w := by
  obtain ⟨g, hg, hreads, hwrites⟩ := h.record
  refine ⟨⟨g, hg, ?_, ?_⟩, ?_⟩
  · intro n
    rw [hreads, hr]
  · intro n
    rw [hwrites, hw]
  · intro n
    rw [h.written, hw]

theorem Logged.read_written (h : Logged f₀ root es w) (hn : n ∈ w.written) :
    Logged f₀ root (es ++ [.read n]) w := by
  have hmem := (h.written n).mp hn
  refine h.congr ?_ ?_
  · intro k
    rw [readFirst_append]
    constructor
    · rintro (hk | ⟨hk, rfl | hf⟩)
      · exact hk
      · exact absurd hmem hk
      · exact hf.elim
    · exact .inl
  · intro k
    simp

/-- A read that is noted. -/
theorem Logged.read_noted (h : Logged f₀ root es w) (hn : n ∉ w.written)
    (hf : w'.functions =
      w.functions.modify root fun g => { g with reads := g.reads.insert n })
    (hw : w'.written = w.written) : Logged f₀ root (es ++ [.read n]) w' := by
  obtain ⟨g, hg, hreads, hwrites⟩ := h.record
  refine ⟨⟨{ g with reads := g.reads.insert n }, ?_, ?_, ?_⟩, ?_⟩
  · rw [hf, Array.getElem?_modify, if_pos rfl, hg]
    rfl
  · intro k
    rw [NameSet.mem_insert, hreads, readFirst_append]
    have hnot : Access.write n ∉ es := fun hc => hn ((h.written n).mpr hc)
    constructor
    · rintro (rfl | hk | hk)
      · exact .inr (.inr ⟨hnot, .inl rfl⟩)
      · exact .inl hk
      · exact .inr (.inl hk)
    · rintro (hk | hk | ⟨_, rfl | hk⟩)
      · exact .inr (.inl hk)
      · exact .inr (.inr hk)
      · exact .inl rfl
      · exact hk.elim
  · intro k
    simp [hwrites]
  · intro k
    rw [hw, h.written]
    simp

/-- A write. -/
theorem Logged.write (h : Logged f₀ root es w)
    (hf : w'.functions =
      w.functions.modify root fun g => { g with writes := g.writes.insert n })
    (hw : w'.written = w.written.insert n) : Logged f₀ root (es ++ [.write n]) w' := by
  obtain ⟨g, hg, hreads, hwrites⟩ := h.record
  refine ⟨⟨{ g with writes := g.writes.insert n }, ?_, ?_, ?_⟩, ?_⟩
  · rw [hf, Array.getElem?_modify, if_pos rfl, hg]
    rfl
  · intro k
    rw [hreads, readFirst_append]
    simp [ReadFirst]
  · intro k
    rw [NameSet.mem_insert, hwrites, List.mem_append, List.mem_singleton, Access.write.injEq]
    grind
  · intro k
    rw [hw, NameSet.mem_insert, h.written, List.mem_append, List.mem_singleton,
      Access.write.injEq]
    exact Or.comm

end Logged

end Footprint.StraightLine
