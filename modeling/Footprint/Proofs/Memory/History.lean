import Mathlib.Data.List.Induction
import Footprint.Proofs.Memory.Collected
import Footprint.Proofs.Memory.Noting
import Footprint.Proofs.Memory.Reached
import Footprint.Proofs.Memory.Refs

/-!
# What marks say about the accesses of a run

Functions access blocks, one after the other, and in between pointers are
recorded at blocks and taken from them.  An access *touches* the block at its
address, and the block of every pointer that is recorded there, or at a whole
that the block is a part of, at that moment.

The marks are kept up access by access.  What they say in the end can be said of
the history as a whole: a function is a writer of the blocks that its writes
touched, and a reader of the blocks that one of its reads touched before a write
of its own had touched the block, or the block that was read.

A history is taken one event longer at its end.  `Occurs` speaks of an event of a
history and of what was before it, and `occurs_snoc` says what the new last event
adds.
-/

namespace Footprint.Memory

/-! ## Events -/

/-- An access to a block, or a change of where a pointer is recorded. -/
inductive Event where
  | addRef (a : Nat) (pointer : String)
  | removeRef (a : Nat) (pointer : String)
  | clearRefs
  | access (use : Walk.Use) (a : Nat) (f : String)
deriving Repr, DecidableEq

/-- What an event does. -/
def Event.run : Event → MemM Unit
  | .addRef a pointer => Memory.addRef a pointer
  | .removeRef a pointer => Memory.removeRef a pointer
  | .clearRefs => Memory.clearRefs
  | .access .read a f => Memory.read a f
  | .access .write a f => Memory.write a f

/-- The address of an event, if it has one, is that of a block. -/
def Event.On (m : Memory) : Event → Prop
  | .clearRefs => True
  | .addRef a _ | .removeRef a _ | .access _ a _ => (m.block? a).isSome

instance (m : Memory) : ∀ e : Event, Decidable (e.On m)
  | .clearRefs => .isTrue trivial
  | .addRef a _ | .removeRef a _ | .access _ a _ =>
    inferInstanceAs (Decidable ((m.block? a).isSome = true))

/-- The event is no access of another function. -/
def Event.concerns (f : String) : Event → Bool
  | .access _ _ g => g = f
  | _ => true

/-- An access at `a` touches the block at `c`. -/
def Touches (m : Memory) (a c : Nat) : Prop :=
  c = a ∨ ∃ d p, m.Within d a ∧ m.RefAt d p ∧ m.address? p = some c

/-- In a history that starts in `m` there is an event with `P`.  The property may speak of the
events before it and of the memory that they lead to. -/
def Occurs (m : Memory) (es : List Event) (P : List Event → Event → Memory → Prop) : Prop :=
  ∃ before e after m₁, es = before ++ e :: after ∧ before.forM Event.run m = .ok ⟨⟩ m₁ ∧
    P before e m₁

/-- A write by `f` touched the block at `c`. -/
def Wrote (m : Memory) (es : List Event) (f : String) (c : Nat) : Prop :=
  Occurs m es fun _ e m₁ => ∃ a, e = .access .write a f ∧ m₁.Touches a c

/-- A read by `f` touched the block at `c`, and no write by `f` had touched the block that was read,
or the one at `c`. -/
def ReadFirst (m : Memory) (es : List Event) (f : String) (c : Nat) : Prop :=
  Occurs m es fun before e m₁ => ∃ a, e = .access .read a f ∧ m₁.Touches a c ∧
    ¬ Wrote m before f a ∧ ¬ Wrote m before f c

variable {m m₁ m₂ m' : Memory} {e : Event} {es : List Event} {f g : String} {a c : Nat} {b : Block}
variable {P : List Event → Event → Memory → Prop} {use : Walk.Use}

/-- What a longer history has is in the history before, or comes with its last event. -/
theorem occurs_snoc (h : es.forM Event.run m = .ok ⟨⟩ m₁) : Occurs m (es ++ [e]) P ↔ Occurs m es P ∨
    P es e m₁ := by
  constructor
  · rintro ⟨before, x, after, m₂, hes, hrun, hP⟩
    rcases List.eq_nil_or_concat after with rfl | ⟨rest, y, rfl⟩
    · obtain ⟨rfl, hx⟩ := List.append_inj' hes rfl
      cases hx
      cases h.symm.trans hrun
      exact .inr hP
    · have hes : es ++ [e] = (before ++ x :: rest) ++ [y] := by simpa using hes
      obtain ⟨rfl, _⟩ := List.append_inj' hes rfl
      exact .inl ⟨before, x, rest, m₂, rfl, hrun, hP⟩
  · rintro (⟨before, x, after, m₂, rfl, hrun, hP⟩ | hP)
    · exact ⟨before, x, after ++ [e], m₂, by simp, hrun, hP⟩
    · exact ⟨es, e, [], m₁, rfl, h, hP⟩

theorem not_occurs_nil : ¬ Occurs m [] P := by
  rintro ⟨before, e, after, _, hes, _⟩
  exact List.append_ne_nil_of_right_ne_nil before (List.cons_ne_nil e after) hes.symm

theorem forM_snoc (h : es.forM Event.run m = .ok ⟨⟩ m₁) (e : Event) :
    (es ++ [e]).forM Event.run m = e.run m₁ := by
  rw [List.forM_eq_forM, List.forM_append]
  refine (bind_of_ok h).trans ?_
  cases he : e.run m₁ with
  | ok _ m₂ => exact (bind_of_ok he).trans rfl
  | error x m₂ => exact bind_of_error he

/-! ## What is touched -/

theorem within_iff (hb : m.block? a = some b) {d : Nat} :
    m.Within d a ↔ d = a ∨ m.Within d b.parent := by
  constructor
  · intro h
    cases h with
    | itself => exact .inl rfl
    | part hc hp =>
      cases hb.symm.trans hc
      exact .inr hp
  · rintro (rfl | hp)
    · exact .itself hb
    · exact .part hb hp

theorem not_within_of_none (hb : m.block? a = none) {d : Nat} : ¬ m.Within d a := by
  intro h
  cases h with
  | itself hc => cases hb.symm.trans hc
  | part hc _ => cases hb.symm.trans hc

/-- The pointers that are found for a block are those recorded at the block or at a whole of it. -/
theorem mem_refs (hl : Linked none m) {p : String} :
    p ∈ m.refs a ↔ ∃ d, m.Within d a ∧ m.RefAt d p := by
  induction a using Nat.strongRecOn with
  | ind a ih =>
    rw [refs]
    cases hb : m.block? a with
    | none =>
      have hno : ¬ ∃ d, m.Within d a ∧ m.RefAt d p := by
        rintro ⟨_, hd, _⟩
        exact not_within_of_none hb hd
      split <;> exact ⟨fun hp => absurd hp List.not_mem_nil, fun h => absurd h hno⟩
    | some b =>
      obtain ⟨hpos, hlt⟩ := hl.lt_next_of_block hb
      obtain ⟨b', hb', hplaced⟩ := hl.block a hpos hlt
      cases hb.symm.trans hb'
      rw [if_neg (Nat.ne_of_gt hpos)]
      dsimp only
      rw [if_pos hplaced.parent, NameSet.mem_union, ih b.parent hplaced.parent]
      simp only [within_iff hb, or_and_right, exists_or, exists_eq_left]
      refine or_congr_left ⟨fun hp => ⟨b, hb, hp⟩, ?_⟩
      rintro ⟨b', hb', hp⟩
      cases hb.symm.trans hb'
      exact hp

/-- No two blocks have one variable. -/
def OneEach (m : Memory) : Prop :=
  ∀ a a' b b', m.block? a = some b → m.block? a' = some b' → b.var = b'.var → a = a'

/-- A use is noted at the blocks that the access touches. -/
theorem mem_noters (hl : Linked none m) (hown : m.OneEach) {d : Block} (hb : m.block? a = some b)
    (hd : m.block? c = some d) : d.var ∈ m.noters a ↔ m.Touches a c := by
  have hpointers : d.var ∈ m.pointerVars (m.refs a).toList ↔
      ∃ p, p ∈ m.refs a ∧ m.address? p = some c := by
    simp only [pointerVars, List.mem_filterMap, Option.bind_eq_some_iff, Option.map_eq_some_iff]
    constructor
    · rintro ⟨p, hp, c', hc', d', hd', hvar⟩
      cases hown c' c d' d hd' hd hvar
      exact ⟨p, hp, hc'⟩
    · rintro ⟨p, hp, hc⟩
      exact ⟨p, hp, c, hc, d, hd, rfl⟩
  have hitself : d.var ∈ ((m.block? a).map Block.var).toList ↔ c = a := by
    rw [hb]
    simp only [Option.map_some, Option.toList_some, List.mem_singleton]
    refine ⟨fun hvar => hown c a d b hd hb hvar, ?_⟩
    rintro rfl
    cases hb.symm.trans hd
    rfl
  rw [noters, List.mem_append, hpointers, hitself, or_comm, Touches]
  refine or_congr_right ⟨?_, ?_⟩
  · rintro ⟨p, hp, hc⟩
    obtain ⟨w, hw, href⟩ := (mem_refs hl).mp hp
    exact ⟨w, p, hw, href, hc⟩
  · rintro ⟨w, p, hw, href, hc⟩
    exact ⟨p, (mem_refs hl).mpr ⟨w, hw, href⟩, hc⟩

theorem Touches.block (h : m.Touches a c) (hl : Linked none m) (hb : m.block? a = some b) :
    ∃ d, m.block? c = some d := by
  rcases h with rfl | ⟨_, p, _, _, hc⟩
  · exact ⟨b, hb⟩
  · exact (Option.map_eq_some_iff.mp (hl.name p c hc)).imp fun _ hd => hd.1

/-- What an access touches depends on the blocks and the names. -/
theorem touches_congr (hblock : ∀ a, m'.block? a = m.block? a) (hnames : m'.names = m.names) :
    m'.Touches a c ↔ m.Touches a c := by
  have hmono : ∀ {m m' : Memory} {d a : Nat}, (∀ a, m'.block? a = m.block? a) → m.Within d a →
      m'.Within d a := by
    intro m m' d a hblock h
    induction h with
    | itself hb => exact .itself ((hblock _).trans hb)
    | part hb _ ih => exact .part ((hblock _).trans hb) ih
  have hwithin (d : Nat) : m'.Within d a ↔ m.Within d a :=
    ⟨hmono fun a => (hblock a).symm, hmono hblock⟩
  simp only [Touches, hwithin, RefAt, hblock, address?, hnames]

/-! ## What one access adds -/

/-- The function is noted for a use of the block at an address. -/
def MarkedAt (m : Memory) (use : Walk.Use) (c : Nat) (f : String) : Prop :=
  ∃ b, m.block? c = some b ∧ f ∈ (m.varOf b.var).marks use

theorem markedAt_iff (hb : m.block? c = some b) :
    m.MarkedAt use c f ↔ f ∈ (m.varOf b.var).marks use := by
  simp only [MarkedAt, hb, Option.some.injEq, exists_eq_left']

theorem mem_readers_marked {v : Variable} :
    f ∈ (marked use g v).readers ↔ f ∈ v.readers ∨ use = .read ∧ f = g ∧ g ∉ v.writers := by
  cases use with
  | write =>
    have hsame : (v.markWrite g).readers = v.readers := by
      unfold Variable.markWrite
      split <;> rfl
    simp [marked, hsame]
  | read =>
    unfold marked Variable.markRead
    dsimp only
    split
    · next hg =>
      have hmem : g ∈ v.readers ∨ g ∈ v.writers := by
        simpa [NameSet.contains, Membership.mem] using hg
      constructor
      · exact .inl
      · rintro (hf | ⟨_, rfl, hnot⟩)
        · exact hf
        · exact hmem.resolve_right hnot
    · next hg =>
      have hnot : g ∉ v.readers ∧ g ∉ v.writers := by
        simpa [NameSet.contains, Membership.mem] using hg
      rw [NameSet.mem_insert]
      simp [hnot.2, or_comm]

/-- A mark that is set twice is set. -/
theorem marked_marked (use : Walk.Use) (f : String) (v : Variable) :
    marked use f (marked use f v) = marked use f v := by
  cases use with
  | read =>
    unfold marked Variable.markRead
    dsimp only
    split
    · rfl
    · have hmem : f ∈ v.readers.insert f := NameSet.mem_insert.mpr (.inl rfl)
      have hcontains : (v.readers.insert f).contains f = true := List.contains_iff_mem.mpr hmem
      simp only [hcontains, Bool.true_or, if_true]
  | write =>
    unfold marked Variable.markWrite
    dsimp only
    split
    · rfl
    · have hmem : f ∈ v.writers.insert f := NameSet.mem_insert.mpr (.inl rfl)
      have hcontains : (v.writers.insert f).contains f = true := List.contains_iff_mem.mpr hmem
      simp only [hcontains, if_true]

theorem varOf_setVars_of_idem {k : Variable → Variable} (hk : ∀ v, k (k v) = k v) :
    ∀ (ids : List VarId) (m : Memory) {id : VarId}, id < m.vars.size →
      (m.setVars ids k).varOf id = if id ∈ ids then k (m.varOf id) else m.varOf id
  | [], _, _, _ => rfl
  | i :: ids, m, id, hid => by
    have hsize : id < (m.setVar i k).vars.size := by simpa [setVar] using hid
    refine (varOf_setVars_of_idem hk ids (m.setVar i k) hsize).trans ?_
    rw [varOf_setVar]
    by_cases hi : i = id
    · simp [hi, hid, hk]
    · simp [hi, Ne.symm hi]

theorem hides_eq_true_iff : m.hides use f a = true ↔ use = .read ∧ m.MarkedAt .write a f := by
  simp only [hides, Bool.and_eq_true, decide_eq_true_eq, Option.any_eq_true, MarkedAt]
  exact and_congr_right fun _ => exists_congr fun b => and_congr_right fun _ =>
    List.contains_iff_mem

theorem not_markedAt_of_none (hc : m.block? c = none) : ¬ m.MarkedAt use c f := by
  rintro ⟨d, hd, _⟩
  cases hc.symm.trans hd

section Access

variable (hl : Linked none m) (hown : m.OneEach) (hb : m.block? a = some b) {use : Walk.Use}

include hl hb

theorem not_touches_of_none (hc : m.block? c = none) : ¬ m.Touches a c := by
  intro h
  obtain ⟨d, hd⟩ := h.block hl hb
  cases hc.symm.trans hd

include hown

/-- The variable of a block that a use is noted at, and of one that it is not noted at. -/
theorem varOf_withUse_cases {d : Block} (hd : m.block? c = some d) :
    (m.hides use g a = false ∧ m.Touches a c ∧
      (m.withUse use g a).varOf d.var = marked use g (m.varOf d.var)) ∨
    (¬ (m.hides use g a = false ∧ m.Touches a c) ∧
      (m.withUse use g a).varOf d.var = m.varOf d.var) := by
  unfold withUse
  cases hhides : m.hides use g a with
  | true => exact .inr ⟨by simp, by rw [if_pos rfl]⟩
  | false =>
    rw [if_neg (by decide), varOf_setVars_of_idem (marked_marked use g) _ _ (hl.var_lt hd)]
    by_cases ht : m.Touches a c
    · exact .inl ⟨rfl, ht, if_pos ((mem_noters hl hown hb hd).mpr ht)⟩
    · exact .inr ⟨fun h => ht h.2, if_neg fun h => ht ((mem_noters hl hown hb hd).mp h)⟩

/-- A write adds its function where it touches a block. -/
theorem markedAt_write_withUse : (m.withUse use g a).MarkedAt .write c f ↔
    m.MarkedAt .write c f ∨ use = .write ∧ f = g ∧ m.Touches a c := by
  cases hd : m.block? c with
  | none =>
    simp [not_markedAt_of_none hd, not_markedAt_of_none ((block?_withUse ..).trans hd),
      not_touches_of_none hl hb hd]
  | some d =>
    rw [markedAt_iff hd, markedAt_iff ((block?_withUse ..).trans hd)]
    rcases varOf_withUse_cases hl hown hb hd with ⟨_, ht, hvar⟩ | ⟨hnot, hvar⟩
    · rw [hvar]
      exact mem_writers_marked.trans (by simp [Variable.marks, ht])
    · rw [hvar]
      refine ⟨.inl, ?_⟩
      rintro (hf | ⟨rfl, _, ht⟩)
      · exact hf
      · exact absurd ⟨rfl, ht⟩ hnot

/-- A read adds its function where it touches a block, unless the function has written the block
that is read, or the one that is touched. -/
theorem markedAt_read_withUse : (m.withUse use g a).MarkedAt .read c f ↔
    m.MarkedAt .read c f ∨ use = .read ∧ f = g ∧ m.Touches a c ∧
      ¬ m.MarkedAt .write a g ∧ ¬ m.MarkedAt .write c g := by
  cases hd : m.block? c with
  | none =>
    simp [not_markedAt_of_none hd, not_markedAt_of_none ((block?_withUse ..).trans hd),
      not_touches_of_none hl hb hd]
  | some d =>
    have hhides : m.hides use g a = true ↔ use = .read ∧ m.MarkedAt .write a g :=
      hides_eq_true_iff
    rw [markedAt_iff hd, markedAt_iff ((block?_withUse ..).trans hd), markedAt_iff hd]
    rcases varOf_withUse_cases hl hown hb hd with ⟨hopen, ht, hvar⟩ | ⟨hnot, hvar⟩
    · rw [hopen] at hhides
      rw [hvar]
      refine mem_readers_marked.trans (or_congr_right ?_)
      constructor
      · rintro ⟨hu, hf, hw⟩
        exact ⟨hu, hf, ht, fun hwrite => Bool.false_ne_true (hhides.mpr ⟨hu, hwrite⟩), hw⟩
      · rintro ⟨hu, hf, _, _, hw⟩
        exact ⟨hu, hf, hw⟩
    · rw [hvar]
      refine ⟨.inl, ?_⟩
      rintro (hf | ⟨rfl, _, ht, hw, _⟩)
      · exact hf
      · refine absurd ⟨?_, ht⟩ hnot
        exact Bool.eq_false_iff.mpr fun htrue => hw (hhides.mp htrue).2

end Access

/-! ## What one event does -/

/-- The memory with no pointers recorded at a block. -/
def forgetAt (m : Memory) (a : Nat) : Memory := m.setBlock a fun b => { b with pointers := {} }

/-- The memory with no pointers recorded at the blocks that are noted as changed. -/
def cleared (m : Memory) : Memory := { m.dirty.foldl forgetAt m with dirty := [] }

theorem clearEach_eq : ∀ {as : List Nat} {m : Memory}, Linked none m →
    (∀ a ∈ as, ∃ b, m.block? a = some b) → clearEach as m = .ok ⟨⟩ (as.foldl forgetAt m)
  | [], _, _, _ => rfl
  | a :: as, m, hl, hbs => by
    obtain ⟨b, hb⟩ := hbs a List.mem_cons_self
    have hsame : SameBlocks m (m.forgetAt a) := sameBlocks_setBlock m a fun _ => ⟨rfl, rfl, rfl⟩
    have hclear : clearAt a m = .ok ⟨⟩ (m.forgetAt a) := bind_of_ok (blockAt_ok hl hb)
    refine (bind_of_ok hclear).trans (clearEach_eq (hl.sameBlocks hsame) fun c hc => ?_)
    obtain ⟨d, hd⟩ := hbs c (List.mem_cons_of_mem a hc)
    obtain ⟨d', hd', _⟩ := hsame.block c d hd
    exact ⟨d', hd'⟩

theorem clearRefs_eq (hl : Linked none m) : clearRefs m = .ok ⟨⟩ m.cleared :=
  (bind_of_ok rfl).trans ((bind_of_ok (clearEach_eq hl hl.dirty)).trans rfl)

/-- The memory after an event. -/
def Event.next (m : Memory) : Event → Memory
  | .addRef a pointer => m.withRefs a (·.insert pointer)
  | .removeRef a pointer => m.withRefs a (·.erase pointer)
  | .clearRefs => m.cleared
  | .access use a f => m.withUse use f a

theorem Event.run_eq (hl : Linked none m) (he : e.On m) : e.run m = .ok ⟨⟩ (e.next m) := by
  cases e with
  | addRef a p =>
    obtain ⟨b, hb⟩ := Option.isSome_iff_exists.mp he
    exact addRef_eq hl hb p
  | removeRef a p =>
    obtain ⟨b, hb⟩ := Option.isSome_iff_exists.mp he
    exact removeRef_eq hl hb p
  | clearRefs => exact clearRefs_eq hl
  | access use a f =>
    obtain ⟨b, hb⟩ := Option.isSome_iff_exists.mp he
    cases use with
    | read => exact read_eq hl hb f
    | write => exact write_eq hl hb f

/-- An event changes marks and the record of pointers only. -/
theorem Event.marked_next (hl : Linked none m) (he : e.On m) : Marked m (e.next m) := by
  have hruns : Runs e.run m fun _ => Marked m := by
    cases e with
    | addRef a p =>
      obtain ⟨b, hb⟩ := Option.isSome_iff_exists.mp he
      exact addRef_marked hl hb p
    | removeRef a p =>
      obtain ⟨b, hb⟩ := Option.isSome_iff_exists.mp he
      exact removeRef_marked hl hb p
    | clearRefs => exact clearRefs_marked hl
    | access use a f =>
      obtain ⟨b, hb⟩ := Option.isSome_iff_exists.mp he
      cases use with
      | read => exact read_marked hl hb f
      | write => exact write_marked hl hb f
  exact hruns.value _ _ (Event.run_eq hl he)

theorem Marked.on (h : Marked m m') (he : e.On m) : e.On m' := by
  have hblock : ∀ a, (m.block? a).isSome = true → (m'.block? a).isSome = true := by
    intro a ha
    obtain ⟨b, hb⟩ := Option.isSome_iff_exists.mp ha
    obtain ⟨b', hb', _⟩ := h.exists_block hb
    exact Option.isSome_iff_exists.mpr ⟨b', hb'⟩
  cases e with
  | clearRefs => trivial
  | addRef a p => exact hblock a he
  | removeRef a p => exact hblock a he
  | access use a f => exact hblock a he

theorem Marked.oneEach (h : Marked m m') (hown : m.OneEach) : m'.OneEach := by
  have hback : ∀ {a : Nat} {b' : Block}, m'.block? a = some b' →
      ∃ b, m.block? a = some b ∧ b.var = b'.var := by
    intro a b' hb'
    have hmap := h.block a
    rw [hb', Option.map_some] at hmap
    exact Option.map_eq_some_iff.mp hmap.symm
  intro a c b' d' hb' hd' hvar
  obtain ⟨b, hb, hbvar⟩ := hback hb'
  obtain ⟨d, hd, hdvar⟩ := hback hd'
  exact hown a c b d hb hd (hbvar.trans (hvar.trans hdvar.symm))

/-- What a memory has but for its variables. -/
def bare (m : Memory) : Memory := { m with vars := #[] }

theorem bare_foldl_forgetAt : ∀ (as : List Nat) (m : Memory),
    (as.foldl forgetAt m).bare = as.foldl forgetAt m.bare
  | [], _ => rfl
  | a :: as, m => bare_foldl_forgetAt as (m.forgetAt a)

theorem bare_withRefs (m : Memory) (a : Nat) (g : NameSet → NameSet) :
    (m.withRefs a g).bare = m.bare.withRefs a g := by
  have htouch : ∀ m : Memory, (m.touch a).bare = m.bare.touch a := by
    intro m
    unfold touch bare
    dsimp only
    split <;> rfl
  exact htouch _

theorem bare_cleared (m : Memory) : m.cleared.bare = m.bare.cleared := by
  unfold cleared
  rw [show m.bare.dirty = m.dirty from rfl, ← bare_foldl_forgetAt]
  rfl

theorem bare_withUse (m : Memory) (use : Walk.Use) (f : String) (a : Nat) :
    (m.withUse use f a).bare = m.bare := by
  unfold withUse
  split
  · rfl
  · rw [setVars_eq]
    rfl

/-- What becomes of a memory but for its variables does not depend on them. -/
theorem Event.bare_next (h : m'.bare = m.bare) (e : Event) :
    (e.next m').bare = (e.next m).bare := by
  cases e with
  | addRef a p => exact (bare_withRefs ..).trans (h ▸ (bare_withRefs ..).symm)
  | removeRef a p => exact (bare_withRefs ..).trans (h ▸ (bare_withRefs ..).symm)
  | clearRefs => exact (bare_cleared _).trans (h ▸ (bare_cleared _).symm)
  | access use a f => exact (bare_withUse ..).trans (h.trans (bare_withUse ..).symm)

theorem touches_of_bare (h : m'.bare = m.bare) : m'.Touches a c ↔ m.Touches a c := by
  have hblocks : m'.blocks = m.blocks := (mk.inj h).2.1
  exact touches_congr (fun a => by rw [block?, block?, hblocks]) (mk.inj h).2.2.2.1

/-- Only an access changes variables. -/
theorem Event.vars_next (he : ∀ use a f, e ≠ .access use a f) : (e.next m).vars = m.vars := by
  have hrefs : ∀ (m : Memory) a g, (m.withRefs a g).vars = m.vars := by
    intro m a g
    unfold withRefs touch
    split <;> rfl
  have hclear : ∀ (as : List Nat) (m : Memory), (as.foldl forgetAt m).vars = m.vars := by
    intro as
    induction as with
    | nil => exact fun _ => rfl
    | cons a as ih => exact fun m => ih (m.forgetAt a)
  cases e with
  | addRef a p => exact hrefs ..
  | removeRef a p => exact hrefs ..
  | clearRefs => exact hclear ..
  | access use a f => exact absurd rfl (he use a f)

section Next

variable (hl : Linked none m) (hown : m.OneEach) (he : e.On m)

include hl he

variable {use : Walk.Use}

/-- A change of where pointers are recorded leaves the marks as they are. -/
theorem markedAt_next_of_refs (hrefs : ∀ use a f, e ≠ .access use a f) :
    (e.next m).MarkedAt use c f ↔ m.MarkedAt use c f := by
  have hmarked := Event.marked_next hl he
  have hvar : ∀ id, (e.next m).varOf id = m.varOf id := fun id => by
    rw [varOf, varOf, Event.vars_next hrefs]
  have hmap := hmarked.block c
  cases hb : m.block? c with
  | none =>
    rw [hb, Option.map_none, Option.map_eq_none_iff] at hmap
    exact iff_of_false (not_markedAt_of_none hmap) (not_markedAt_of_none hb)
  | some b =>
    obtain ⟨b', hb', hsame⟩ := hmarked.exists_block hb
    rw [markedAt_iff hb, markedAt_iff hb', hvar, hsame]

/-- The functions with a mark that an event adds. -/
theorem markedAt_next {P : Nat → Prop}
    (haccess : ∀ u g a b, m.block? a = some b → ((m.withUse u g a).MarkedAt use c f ↔
      m.MarkedAt use c f ∨ u = use ∧ f = g ∧ P a)) :
    (e.next m).MarkedAt use c f ↔ m.MarkedAt use c f ∨ ∃ a, e = .access use a f ∧ P a := by
  have hrest (hrefs : ∀ use a f, e ≠ .access use a f) : (e.next m).MarkedAt use c f ↔ _ :=
    markedAt_next_of_refs hl he hrefs
  cases e with
  | addRef a p => exact (hrest (by simp)).trans (by simp)
  | removeRef a p => exact (hrest (by simp)).trans (by simp)
  | clearRefs => exact (hrest (by simp)).trans (by simp)
  | access u a g =>
    obtain ⟨b, hb⟩ := Option.isSome_iff_exists.mp he
    refine (haccess u g a b hb).trans (or_congr_right ?_)
    simp only [Event.access.injEq]
    constructor
    · rintro ⟨rfl, rfl, hP⟩
      exact ⟨a, ⟨rfl, rfl, rfl⟩, hP⟩
    · rintro ⟨_, ⟨rfl, rfl, rfl⟩, hP⟩
      exact ⟨rfl, rfl, hP⟩

include hown

theorem markedAt_write_next : (e.next m).MarkedAt .write c f ↔
    m.MarkedAt .write c f ∨ ∃ a, e = .access .write a f ∧ m.Touches a c :=
  markedAt_next hl he fun _ _ _ _ hb => markedAt_write_withUse hl hown hb

theorem markedAt_read_next : (e.next m).MarkedAt .read c f ↔
    m.MarkedAt .read c f ∨ ∃ a, e = .access .read a f ∧ m.Touches a c ∧
      ¬ m.MarkedAt .write a f ∧ ¬ m.MarkedAt .write c f := by
  refine markedAt_next hl he fun u g a b hb => (markedAt_read_withUse hl hown hb).trans ?_
  exact or_congr_right (and_congr_right fun _ => and_congr_right fun hg => by rw [hg])

end Next

/-! ## Histories -/

/-- The history leads from `m` to `m'`, and the marks of `m'` tell what it was. -/
structure Tells (m : Memory) (es : List Event) (m' : Memory) : Prop where
  run : es.forM Event.run m = .ok ⟨⟩ m'
  same : Marked m m'
  writers : ∀ f c, m'.MarkedAt .write c f ↔ Wrote m es f c
  readers : ∀ f c, m'.MarkedAt .read c f ↔ ReadFirst m es f c

/-- Marks that tell the history so far tell the longer one after one more event. -/
theorem Tells.snoc (h : Tells m es m₁) (hown : m.OneEach) (he : e.On m) :
    Tells m (es ++ [e]) (e.next m₁) := by
  have hl := h.same.linked
  have hon := h.same.on he
  have hown := h.same.oneEach hown
  refine ⟨(forM_snoc h.run e).trans (Event.run_eq hl hon), h.same.trans (Event.marked_next hl hon),
    fun f c => ?_, fun f c => ?_⟩
  · rw [markedAt_write_next hl hown hon, h.writers]
    exact (occurs_snoc h.run).symm
  · rw [markedAt_read_next hl hown hon, h.readers]
    simp only [h.writers]
    exact (occurs_snoc h.run).symm

theorem exists_tells (hl : Linked none m) (hown : m.OneEach)
    (hclean : ∀ use c f, ¬ m.MarkedAt use c f) (es : List Event) (hes : ∀ e ∈ es, e.On m) :
    ∃ m', Tells m es m' := by
  induction es using List.reverseRecOn with
  | nil =>
    refine ⟨m, rfl, .refl hl, fun f c => ?_, fun f c => ?_⟩
    · exact iff_of_false (hclean _ c f) not_occurs_nil
    · exact iff_of_false (hclean _ c f) not_occurs_nil
  | append_singleton es e ih =>
    obtain ⟨m₁, h⟩ := ih fun x hx => hes x (List.mem_append_left _ hx)
    exact ⟨e.next m₁, h.snoc hown (hes e (List.mem_append_right _ List.mem_cons_self))⟩

/-- The events that are no accesses of other functions than `f`. -/
abbrev concerning (f : String) (es : List Event) : List Event := es.filter (Event.concerns f)

/-- Without the accesses of other functions, the same blocks are touched at the same moments. -/
structure Beside (f : String) (m : Memory) (es : List Event) (m₁ m₂ : Memory) : Prop where
  bare : m₂.bare = m₁.bare
  wrote : ∀ c, Wrote m (concerning f es) f c ↔ Wrote m es f c
  readFirst : ∀ c, ReadFirst m (concerning f es) f c ↔ ReadFirst m es f c

theorem beside_nil (f : String) (m : Memory) : Beside f m [] m m :=
  ⟨rfl, fun _ => .rfl, fun _ => .rfl⟩

section Beside

variable (h : Beside f m es m₁ m₂) (hrun : es.forM Event.run m = .ok ⟨⟩ m₁)

include h hrun

/-- One more event of the function, or one that is no access. -/
theorem Beside.snoc (halone : (concerning f es).forM Event.run m = .ok ⟨⟩ m₂)
    (he : e.concerns f = true) : Beside f m (es ++ [e]) (e.next m₁) (e.next m₂) := by
  have hfilter : concerning f (es ++ [e]) = concerning f es ++ [e] := by
    simp [concerning, he]
  refine ⟨Event.bare_next h.bare e, fun c => ?_, fun c => ?_⟩
  · rw [hfilter]
    refine (occurs_snoc halone).trans (Iff.trans ?_ (occurs_snoc hrun).symm)
    simp only [touches_of_bare h.bare]
    exact or_congr_left (h.wrote c)
  · rw [hfilter]
    refine (occurs_snoc halone).trans (Iff.trans ?_ (occurs_snoc hrun).symm)
    simp only [touches_of_bare h.bare, h.wrote]
    exact or_congr_left (h.readFirst c)

/-- One more access of another function. -/
theorem Beside.other (he : e.concerns f = false) : Beside f m (es ++ [e]) (e.next m₁) m₂ := by
  have hfilter : concerning f (es ++ [e]) = concerning f es := by simp [concerning, he]
  have hother : ∀ use a, e ≠ .access use a f := by
    rintro use a rfl
    simp [Event.concerns] at he
  obtain ⟨use, a, g, rfl⟩ : ∃ use a g, e = .access use a g := by
    cases e with
    | access use a g => exact ⟨use, a, g, rfl⟩
    | addRef a p => cases he
    | removeRef a p => cases he
    | clearRefs => cases he
  refine ⟨h.bare.trans (bare_withUse m₁ use g a).symm, fun c => ?_, fun c => ?_⟩
  · rw [hfilter, h.wrote]
    refine Iff.trans ?_ (occurs_snoc hrun).symm
    simp [Wrote, hother]
  · rw [hfilter, h.readFirst]
    refine Iff.trans ?_ (occurs_snoc hrun).symm
    simp [ReadFirst, hother]

end Beside

theorem beside_of_tells (hl : Linked none m) (hown : m.OneEach)
    (hclean : ∀ use c f, ¬ m.MarkedAt use c f) (f : String) (es : List Event)
    (hes : ∀ e ∈ es, e.On m) :
    ∃ m₁ m₂, Tells m es m₁ ∧ Tells m (concerning f es) m₂ ∧ Beside f m es m₁ m₂ := by
  induction es using List.reverseRecOn with
  | nil =>
    obtain ⟨m₁, h⟩ := exists_tells hl hown hclean [] hes
    cases h.run
    exact ⟨m, m, h, h, beside_nil f m⟩
  | append_singleton es e ih =>
    obtain ⟨m₁, m₂, h₁, h₂, h⟩ := ih fun x hx => hes x (List.mem_append_left _ hx)
    have he := hes e (List.mem_append_right _ List.mem_cons_self)
    cases hconcerns : e.concerns f with
    | true =>
      refine ⟨_, _, h₁.snoc hown he, ?_, h.snoc h₁.run h₂.run hconcerns⟩
      have hfilter : concerning f (es ++ [e]) = concerning f es ++ [e] := by
        simp [concerning, hconcerns]
      exact hfilter ▸ h₂.snoc hown he
    | false =>
      refine ⟨_, m₂, h₁.snoc hown he, ?_, h.other h₁.run hconcerns⟩
      have hfilter : concerning f (es ++ [e]) = concerning f es := by simp [concerning, hconcerns]
      exact hfilter ▸ h₂

/-- A history of accesses and moved pointers comes to an end.  A function is then a writer of
exactly the blocks that its writes touched, and a reader of exactly those that one of its reads
touched before it had written them or the block that was read.  The accesses of other functions make
no difference to its marks. -/
theorem marks_of_history (hl : Linked none m) (hown : m.OneEach)
    (hclean : ∀ use c f, ¬ m.MarkedAt use c f) (hes : ∀ e ∈ es, e.On m) :
    ∃ m', es.forM Event.run m = .ok ⟨⟩ m' ∧
      (∀ f c, m'.MarkedAt .write c f ↔ Wrote m es f c) ∧
      (∀ f c, m'.MarkedAt .read c f ↔ ReadFirst m es f c) ∧
      ∀ f, ∃ m'', (concerning f es).forM Event.run m = .ok ⟨⟩ m'' ∧
        ∀ use c, m''.MarkedAt use c f ↔ m'.MarkedAt use c f := by
  obtain ⟨m', h⟩ := exists_tells hl hown hclean es hes
  refine ⟨m', h.run, h.writers, h.readers, fun f => ?_⟩
  obtain ⟨m₁, m₂, h₁, h₂, hbeside⟩ := beside_of_tells hl hown hclean f es hes
  cases h.run.symm.trans h₁.run
  refine ⟨m₂, h₂.run, fun use c => ?_⟩
  cases use with
  | read => rw [h₂.readers, h.readers, hbeside.readFirst]
  | write => rw [h₂.writers, h.writers, hbeside.wrote]

/-- A struct `v`. -/
def structV : Variable := { name := "v", type := "struct position", kind := .record }

/-- A pointer `q`. -/
def pointerQ : Variable := { name := "q", type := "int *", kind := .pointer, isPointer := true }

/-- A memory with a struct and a pointer declared. -/
def declaredPair : Memory :=
  (Call.declare pointerQ).after positions ((Call.declare structV).after positions {})

/-- The memory with both laid out: `v`, `v.at`, `v.at[?]`, `v.tag` and `q`. -/
def pointedMemory : Memory := (Call.allocateGlobals [0, 1]).after positions declaredPair

theorem reached_pointedMemory : Reached positions pointedMemory := by
  have hv := Reached.empty.after (.declare structV) (show structV.parts = {} from rfl)
    (show Call.comesToEnd positions _ _ = true by decide +kernel)
  have hpair : Reached positions declaredPair :=
    hv.after (.declare pointerQ) (show pointerQ.parts = {} from rfl) (by decide +kernel)
  refine hpair.after (.allocateGlobals [0, 1]) ?_ (by decide +kernel)
  show ∀ id ∈ [0, 1], id < declaredPair.vars.size
  decide +kernel

/-- The pointer `q` points to `v`.  The function `f` reads `v.tag`, `g` writes it and reads it, and
when the pointer is gone `f` writes `v.tag` and reads it again. -/
def pointedEvents : List Event :=
  [.addRef 1 "q", .access .read 4 "f", .access .write 4 "g", .access .read 4 "g", .clearRefs,
   .access .write 4 "f", .access .read 4 "f"]

theorem marks_of_history_pointed :
    Linked none pointedMemory ∧ pointedMemory.OneEach ∧
      (∀ use c f, ¬ pointedMemory.MarkedAt use c f) ∧ (∀ e ∈ pointedEvents, e.On pointedMemory) ∧
      ∃ m', pointedEvents.forM Event.run pointedMemory = .ok ⟨⟩ m' ∧
        (∀ f c, m'.MarkedAt .write c f ↔ Wrote pointedMemory pointedEvents f c) ∧
        (∀ f c, m'.MarkedAt .read c f ↔ ReadFirst pointedMemory pointedEvents f c) ∧
        m'.MarkedAt .read 5 "f" ∧ m'.MarkedAt .write 5 "g" ∧ ¬ m'.MarkedAt .write 5 "f" := by
  have hl := reached_pointedMemory.linked
  have hown : pointedMemory.OneEach := (show pointedMemory.Forest by decide +kernel).own
  have hclean : ∀ use c f, ¬ pointedMemory.MarkedAt use c f := by
    rintro use c f ⟨b, hb, hf⟩
    have hnone : ∀ v ∈ pointedMemory.vars, v.marks use = {} := by
      cases use with
      | read => decide +kernel
      | write => decide +kernel
    have hlt := hl.var_lt hb
    have hempty : (pointedMemory.varOf b.var).marks use = {} := by
      rw [varOf, Array.getElem?_eq_getElem hlt]
      exact hnone _ (Array.getElem_mem hlt)
    rw [hempty] at hf
    cases hf
  have hes : ∀ e ∈ pointedEvents, e.On pointedMemory := by decide +kernel
  obtain ⟨m', hrun, hwrite, hread, _⟩ := marks_of_history hl hown hclean hes
  have hmarks : (after? (pointedEvents.forM Event.run pointedMemory)).map
      (fun m => ((m.block? 5).map Block.var, (m.varOf 1).readers, (m.varOf 1).writers)) =
      some (some 1, ⟨["f"]⟩, ⟨["g"]⟩) := by decide +kernel
  rw [hrun] at hmarks
  obtain ⟨hblock, hmarks⟩ := Prod.mk.inj (Option.some.inj hmarks)
  obtain ⟨hreaders, hwriters⟩ := Prod.mk.inj hmarks
  obtain ⟨b, hb, hvar⟩ := Option.map_eq_some_iff.mp hblock
  refine ⟨hl, hown, hclean, hes, m', hrun, hwrite, hread, ?_⟩
  simp only [markedAt_iff hb, hvar, Variable.marks, hreaders, hwriters]
  decide

end Footprint.Memory
