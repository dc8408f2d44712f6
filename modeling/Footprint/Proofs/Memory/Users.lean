import Footprint.Proofs.CallGraph
import Footprint.Proofs.Memory.Framed

/-!
# Who uses a block

The marks of some functions, when other functions are analysed after them and
the wholes are given the marks of their parts.

Nothing that is analysed later takes a mark away or adds one of the functions
before (`Spares`).  It does lay out new blocks.  A new block that is a part has a
new variable, which none of the functions before has marked, and a new root
gives its marks to no whole.  The search for parts comes to the blocks of before
in the order in which it came to them without the new ones.  So the wholes get
from their parts what they would have got (`Spares.collect`).
-/

namespace Footprint

theorem NameSet.mem_union {s t : NameSet} {x : String} : x ∈ s.union t ↔ x ∈ s ∨ x ∈ t :=
  CallGraph.mem_foldl_insert.trans or_comm

namespace Memory

/-- The block at an address has a mark of the function. -/
def UsedAt (m : Memory) (a : Nat) (f : String) : Prop :=
  ∃ b, m.block? a = some b ∧ (m.varOf b.var).UsedBy f

/-- The block at an address is written by the function. -/
def WrittenAt (m : Memory) (a : Nat) (f : String) : Prop :=
  ∃ b, m.block? a = some b ∧ f ∈ (m.varOf b.var).writers

variable {m : Memory} {S : String → Prop}

theorem WrittenAt.usedAt {a : Nat} {f : String} (h : m.WrittenAt a f) : m.UsedAt a f := by
  obtain ⟨b, hb, hwrite⟩ := h
  exact ⟨b, hb, .inr hwrite⟩

/-- The blocks of `m` are in `m'`, and the variables have the same marks of the functions in `S`. -/
structure Alike (S : String → Prop) (m m' : Memory) : Prop where
  vars : m.vars.size ≤ m'.vars.size
  block : ∀ a b, m.block? a = some b → ∃ b', m'.block? a = some b' ∧ b'.parent = b.parent ∧
    b'.var = b.var
  readers : ∀ id f, S f → (f ∈ (m'.varOf id).readers ↔ f ∈ (m.varOf id).readers)
  writers : ∀ id f, S f → (f ∈ (m'.varOf id).writers ↔ f ∈ (m.varOf id).writers)

/-- What is new in `m'` is a root, or a part with a new variable. -/
structure Spares (S : String → Prop) (m m' : Memory) : Prop extends Alike S m m' where
  fresh : ∀ a b, m'.block? a = some b → m.block? a = none → b.parent = 0 ∨ m.vars.size ≤ b.var

section Spares

variable {S : String → Prop} {m m' m'' n : Memory} {f : String} {a : Nat} {b : Block}

theorem Alike.used (h : Alike S m m') (id : VarId) (hf : S f) :
    (m'.varOf id).UsedBy f ↔ (m.varOf id).UsedBy f :=
  or_congr (h.readers id f hf) (h.writers id f hf)

theorem Alike.usedAt (h : Alike S m m') (hb : m.block? a = some b)
    (hf : S f) : m'.UsedAt a f ↔ m.UsedAt a f := by
  obtain ⟨b', hb', _, hvar⟩ := h.block a b hb
  simp only [UsedAt, hb, hb', Option.some.injEq, exists_eq_left', hvar, h.used b.var hf]

theorem Alike.writtenAt (h : Alike S m m') (hb : m.block? a = some b)
    (hf : S f) : m'.WrittenAt a f ↔ m.WrittenAt a f := by
  obtain ⟨b', hb', _, hvar⟩ := h.block a b hb
  simp only [WrittenAt, hb, hb', Option.some.injEq, exists_eq_left', hvar, h.writers b.var f hf]

/-- A new variable has no mark of the functions in `S`. -/
theorem Alike.not_used (h : Alike S m m') {id : VarId} (hid : m.vars.size ≤ id) (hf : S f) :
    ¬ (m'.varOf id).UsedBy f := by
  have hblank : m.varOf id = default := by
    rw [varOf, Array.getElem?_eq_none hid]
    rfl
  rw [h.used id hf, hblank]
  exact Variable.Blank.not_usedBy ⟨rfl, rfl, rfl⟩ f

theorem Spares.refl (S : String → Prop) (m : Memory) : Spares S m m where
  vars := Nat.le_refl _
  block _ b hb := ⟨b, hb, rfl, rfl⟩
  readers _ _ _ := .rfl
  writers _ _ _ := .rfl
  fresh a b hb hnone := by
    rw [hb] at hnone
    cases hnone

theorem Spares.trans (h : Spares S m m') (h' : Spares S m' m'') : Spares S m m'' where
  vars := Nat.le_trans h.vars h'.vars
  block a b hb := by
    obtain ⟨b', hb', hparent, hvar⟩ := h.block a b hb
    obtain ⟨b'', hb'', hparent', hvar'⟩ := h'.block a b' hb'
    exact ⟨b'', hb'', hparent'.trans hparent, hvar'.trans hvar⟩
  readers id f hf := (h'.readers id f hf).trans (h.readers id f hf)
  writers id f hf := (h'.writers id f hf).trans (h.writers id f hf)
  fresh a b hb hnone := by
    cases hmid : m'.block? a with
    | none => exact (h'.fresh a b hb hmid).imp_right (Nat.le_trans h.vars)
    | some c =>
      obtain ⟨b', hb', hparent, hvar⟩ := h'.block a c hmid
      cases hb.symm.trans hb'
      rw [hparent, hvar]
      exact h.fresh a c hmid hnone

/-- The analysis of another function spares the functions in `S`. -/
theorem Framed.spares {params : VarId → Prop} (h : Framed f params m m')
    (hf : ¬ S f) : Spares S m m' := by
  have hne : ∀ g, S g → g ≠ f := fun g hg he => hf (he ▸ hg)
  refine ⟨⟨h.vars, fun a b hb => ?_, fun id g hg => (h.marks id).readers g (hne g hg),
    fun id g hg => (h.marks id).writers g (hne g hg)⟩, h.fresh⟩
  obtain ⟨b', hb', _, hparent, hvar⟩ := h.block a b hb
  exact ⟨b', hb', hparent, hvar⟩

/-! ## Marks of parts -/

@[simp] theorem block?_liftMarks (m : Memory) (a c : Nat) :
    (m.liftMarks a).block? c = m.block? c := by
  unfold liftMarks
  split
  · rfl
  · split <;> rfl

@[simp] theorem size_liftMarks (m : Memory) (a : Nat) :
    (m.liftMarks a).vars.size = m.vars.size := by
  unfold liftMarks
  split
  · rfl
  · split
    · rfl
    · simp [setVar]

theorem liftMarks_of_part {p : Block} (hb : m.block? a = some b) (hp : m.block? b.parent = some p) :
    m.liftMarks a = m.setVar p.var (shareMarks (m.varOf b.var)) := by
  unfold liftMarks
  rw [hb]
  dsimp only
  rw [hp]

theorem liftMarks_of_root (hl : Linked none m)
    (h : ∀ b, m.block? a = some b → b.parent = 0) : m.liftMarks a = m := by
  unfold liftMarks
  split
  · rfl
  · next b hb =>
    have hzero : m.block? 0 = none := by rw [block?, hl.zero]; rfl
    rw [h b hb, hzero]

theorem Linked.liftMarks (hl : Linked none m) (a : Nat) : Linked none (m.liftMarks a) :=
  (keeps_liftMarks (J := m.After) (fun id _ h => h.setVar id) (.refl hl) a).linked

/-- A new block gives no whole a mark of the functions in `S`. -/
theorem Spares.liftMarks_new (h : Spares S m m') (hl : Linked none m')
    (ha : m.block? a = none) : Spares S m (m'.liftMarks a) := by
  by_cases hroot : ∀ b, m'.block? a = some b → b.parent = 0
  · rw [liftMarks_of_root hl hroot]
    exact h
  · obtain ⟨b, hb⟩ := not_forall.mp hroot
    obtain ⟨hb, hparent⟩ := Classical.not_imp.mp hb
    have hnew := (h.fresh a b hb ha).resolve_left hparent
    obtain ⟨p, hp, _⟩ := hl.block b.parent (Nat.pos_of_ne_zero hparent) <| by
      obtain ⟨hpos, hlt⟩ := hl.lt_next_of_block hb
      obtain ⟨b', hb', hplaced⟩ := hl.block a hpos hlt
      cases hb.symm.trans hb'
      exact Nat.lt_trans hplaced.parent hlt
    have hmarks : ∀ id f, S f →
        (f ∈ ((m'.liftMarks a).varOf id).readers ↔ f ∈ (m'.varOf id).readers) ∧
        (f ∈ ((m'.liftMarks a).varOf id).writers ↔ f ∈ (m'.varOf id).writers) := by
      intro id f hf
      have hnone := not_or.mp (h.not_used hnew hf)
      rw [liftMarks_of_part hb hp, varOf_setVar]
      split
      · simp [shareMarks, NameSet.mem_union, hnone]
      · exact ⟨.rfl, .rfl⟩
    refine ⟨⟨by rw [size_liftMarks]; exact h.vars, by simpa using h.block, ?_, ?_⟩, ?_⟩
    · exact fun id f hf => (hmarks id f hf).1.trans (h.readers id f hf)
    · exact fun id f hf => (hmarks id f hf).2.trans (h.writers id f hf)
    · simpa using h.fresh

/-- A block that was there gives its whole the same marks of the functions in `S`. -/
theorem Alike.liftMarks (h : Alike S m m') (hl : Linked none m) (hl' : Linked none m')
    (ha : m.block? a = none → m'.block? a = none) : Alike S (m.liftMarks a) (m'.liftMarks a) := by
  cases hb : m.block? a with
  | none =>
    rw [liftMarks_of_root hl fun b hb' => (by rw [hb] at hb'; cases hb'),
      liftMarks_of_root hl' fun b hb' => (by rw [ha hb] at hb'; cases hb')]
    exact h
  | some b =>
    obtain ⟨b', hb', hparent, hvar⟩ := h.block a b hb
    by_cases hzero : b.parent = 0
    · rw [liftMarks_of_root hl fun c hc => (by cases hb.symm.trans hc; exact hzero),
        liftMarks_of_root hl' fun c hc => (by cases hb'.symm.trans hc; rw [hparent, hzero])]
      exact h
    · obtain ⟨hpos, hlt⟩ := hl.lt_next_of_block hb
      obtain ⟨_, hsame, hplaced⟩ := hl.block a hpos hlt
      cases hb.symm.trans hsame
      obtain ⟨p, hp, hwhole⟩ :=
        hl.block b.parent (Nat.pos_of_ne_zero hzero) (Nat.lt_trans hplaced.parent hlt)
      obtain ⟨p', hp', _, hpvar⟩ := h.block b.parent p hp
      have hlift := liftMarks_of_part hb hp
      have hlift' := liftMarks_of_part hb' (hparent ▸ hp')
      have hmarks : ∀ id f, S f →
          (f ∈ ((m'.liftMarks a).varOf id).readers ↔ f ∈ ((m.liftMarks a).varOf id).readers) ∧
          (f ∈ ((m'.liftMarks a).varOf id).writers ↔ f ∈ ((m.liftMarks a).varOf id).writers) := by
        intro id f hf
        have hr (j : VarId) := h.readers j f hf
        have hw (j : VarId) := h.writers j f hf
        rw [hlift, hlift', varOf_setVar, varOf_setVar, hpvar, hvar]
        by_cases hid : p.var = id
        · subst hid
          rw [if_pos ⟨rfl, Nat.lt_of_lt_of_le hwhole.var h.vars⟩, if_pos ⟨rfl, hwhole.var⟩]
          simp only [shareMarks, NameSet.mem_union, hr, hw, and_self]
        · rw [if_neg fun he => hid he.1, if_neg fun he => hid he.1]
          exact ⟨hr id, hw id⟩
      refine ⟨by simpa using h.vars, by simpa using h.block, ?_, ?_⟩
      · exact fun id f hf => (hmarks id f hf).1
      · exact fun id f hf => (hmarks id f hf).2

theorem size_blocks_liftMarks (m : Memory) (a : Nat) :
    (m.liftMarks a).blocks.size = m.blocks.size := by
  unfold Memory.liftMarks
  split
  · rfl
  · split <;> rfl

/-- The state of two searches, one before and one after blocks were added from an address on. -/
structure SparesFrom (S : String → Prop) (size : Nat) (m m' : Memory) : Prop
    extends Spares S m m' where
  linked : Linked none m
  linked' : Linked none m'
  size : m.blocks.size = size

variable {size : Nat}

theorem SparesFrom.block?_new (h : SparesFrom S size m m') (ha : size ≤ a) : m.block? a = none := by
  rw [block?, Array.getElem?_eq_none (h.size ▸ ha)]
  rfl

theorem SparesFrom.liftMarks_new (h : SparesFrom S size m m') (ha : size ≤ a) :
    SparesFrom S size m (m'.liftMarks a) :=
  ⟨h.toSpares.liftMarks_new h.linked' (h.block?_new ha), h.linked, h.linked'.liftMarks a, h.size⟩

theorem SparesFrom.liftMarks (h : SparesFrom S size m m') (hpos : 0 < a) (ha : a < size) :
    SparesFrom S size (m.liftMarks a) (m'.liftMarks a) := by
  have halike := h.toAlike.liftMarks h.linked h.linked' fun hnone => by
    obtain ⟨b, hb, _⟩ := h.linked.block a hpos (h.linked.next ▸ h.size ▸ ha)
    cases hb.symm.trans hnone
  exact ⟨⟨halike, by simpa using h.fresh⟩, h.linked.liftMarks a, h.linked'.liftMarks a,
    (size_blocks_liftMarks m a).trans h.size⟩

/-! ## Searches -/

theorem Linked.lt_of_mem_partsOf (h : Linked none m) {c : Nat} (hc : c ∈ m.partsOf a) :
    a < c ∧ c < m.blocks.size := by
  obtain ⟨hpos, b, hb, rfl⟩ := mem_partsOf.mp hc
  have hlt := (h.lt_next_of_block hb).2
  obtain ⟨b', hb', hplaced⟩ := h.block c hpos hlt
  cases hb.symm.trans hb'
  exact ⟨hplaced.parent, h.next ▸ hlt⟩

/-- New parts of a block come after those it has. -/
theorem Alike.partsOf_append (h : Alike S m m') (hl : Linked none m) (hl' : Linked none m')
    (a : Nat) :
    ∃ new, m'.partsOf a = m.partsOf a ++ new ∧ ∀ c ∈ new, m.blocks.size ≤ c := by
  have hpos : 0 < m.blocks.size := hl.next ▸ hl.pos
  have hsize : m.blocks.size ≤ m'.blocks.size := by
    rw [← hl.next, ← hl'.next]
    by_contra hlt
    obtain ⟨b, hb, _⟩ := hl.block m'.next hl'.pos (by omega)
    obtain ⟨b', hb', _⟩ := h.block _ b hb
    exact absurd (hl'.lt_next_of_block hb').2 (Nat.lt_irrefl _)
  have hrange : List.range' 1 (m'.blocks.size - 1) = List.range' 1 (m.blocks.size - 1) ++
      List.range' (1 + (m.blocks.size - 1)) (m'.blocks.size - m.blocks.size) := by
    rw [List.range'_append_1]
    congr 1
    omega
  unfold partsOf
  rw [hrange, List.filter_append]
  refine ⟨_, congrArg (· ++ _) (List.filter_congr fun c hc => ?_), fun c hc => ?_⟩
  · have hc := List.mem_range'_1.mp hc
    obtain ⟨b, hb, _⟩ := hl.block c (by omega) (by have := hl.next; omega)
    obtain ⟨b', hb', hparent, _⟩ := h.block c b hb
    rw [hb, hb']
    exact congrArg (fun p => decide (p = a)) hparent
  · have hc := List.mem_range'_1.mp (List.mem_filter.mp hc).1
    omega

section Searches

variable {n n' : Memory} {parts parts' : Array (Array Nat)} {depth depth' : Nat}
variable (hl : Linked none n) (hl' : Linked none n')
variable (hparts : ∀ a, (parts.getD a #[]).toList = n.partsOf a)
variable (hparts' : ∀ a, (parts'.getD a #[]).toList = n'.partsOf a)

include hl' hparts'

/-- A search from a new block comes to new blocks only. -/
theorem SparesFrom.gather_new (h : SparesFrom S size m m') (ha : size ≤ a) :
    SparesFrom S size m (gather parts' depth m' a) := by
  induction depth generalizing m' a with
  | zero => exact h
  | succ depth ih =>
    refine List.foldlRecOn _ _ h fun m₁ h c hc => ?_
    rw [hparts'] at hc
    have hlt := (hl'.lt_of_mem_partsOf hc).1
    exact (ih h (by omega)).liftMarks_new (by omega)

include hl hparts

/-- A search from a block of before comes to the blocks of before in the same order, and to new
ones between them. -/
theorem SparesFrom.gather (halike : Alike S n n') (h : SparesFrom S n.blocks.size m m')
    (ha : n.blocks.size ≤ a + depth) (ha' : n'.blocks.size ≤ a + depth') :
    SparesFrom S n.blocks.size (gather parts depth m a) (gather parts' depth' m' a) := by
  induction depth' generalizing depth m m' a with
  | zero =>
    have hnone : (parts.getD a #[]).toList = [] := by
      refine List.eq_nil_iff_forall_not_mem.mpr fun c hc => ?_
      rw [hparts] at hc
      obtain ⟨hpos, b, hb, hparent⟩ := mem_partsOf.mp hc
      obtain ⟨b', hb', hparent', _⟩ := halike.block c b hb
      have hlt := hl'.lt_of_mem_partsOf (mem_partsOf.mpr ⟨hpos, b', hb', hparent'.trans hparent⟩)
      omega
    cases depth with
    | zero => exact h
    | succ depth =>
      unfold Memory.gather
      rw [hnone]
      exact h
  | succ depth' ih =>
    cases depth with
    | zero => exact h.gather_new hl' hparts' ha
    | succ depth =>
      obtain ⟨new, hnew, hlate⟩ := halike.partsOf_append hl hl' a
      unfold Memory.gather
      rw [hparts', hnew, List.foldl_append, hparts]
      refine List.foldlRecOn _ _ (List.foldl_rel (r := SparesFrom S n.blocks.size) h
        fun c hc m m' h => ?_) fun m₁ h c hc => ?_
      · have hlt := hl.lt_of_mem_partsOf hc
        exact (ih h (by omega) (by omega)).liftMarks (by omega) hlt.2
      · exact (h.gather_new hl' hparts' (hlate c hc)).liftMarks_new (hlate c hc)

end Searches

/-- When the wholes are given the marks of their parts, the blocks of before get the same marks of
the functions in `S`. -/
theorem Spares.collect (h : Spares S m m') (hl : Linked none m) (hl' : Linked none m')
    {n' : Memory} (hn : collect m = .ok ⟨⟩ n) (hn' : collect m' = .ok ⟨⟩ n') : Alike S n n' := by
  obtain ⟨parts, hparts, hgrouped⟩ := hl.exists_groupParts
  obtain ⟨parts', hparts', hgrouped'⟩ := hl'.exists_groupParts
  cases (collect_eq hparts).symm.trans hn
  cases (collect_eq hparts').symm.trans hn'
  obtain ⟨new, hnew, hlate⟩ := h.partsOf_append hl hl' 0
  have hstart : SparesFrom S m.blocks.size m m' := ⟨h, hl, hl', rfl⟩
  rw [hgrouped', hnew, List.foldl_append, hgrouped]
  refine (List.foldlRecOn _ _ (List.foldl_rel (r := SparesFrom S m.blocks.size) hstart
    fun c _ m₁ m₁' h₁ => ?_) fun m₁ h c hc => ?_ : SparesFrom S m.blocks.size _ _).toAlike
  · exact h₁.gather hl hl' hgrouped hgrouped' h.toAlike (Nat.le_add_left ..) (Nat.le_add_left ..)
  · exact h.gather_new hl' hgrouped' (hlate c hc)

end Spares

/-- Only functions in `S` have marks. -/
def Users (S : String → Prop) (m : Memory) : Prop := ∀ id f, (m.varOf id).UsedBy f → S f

theorem Users.liftMarks (h : Users S m) (a : Nat) : Users S (m.liftMarks a) := by
  unfold Memory.liftMarks
  split
  · exact h
  · next b _ =>
    split
    · exact h
    · intro id f hused
      rw [varOf_setVar] at hused
      split at hused
      · rcases hused with hr | hw
        · rcases NameSet.mem_union.mp hr with hr | hr
          · exact h id f (.inl hr)
          · exact h b.var f (.inl hr)
        · rcases NameSet.mem_union.mp hw with hw | hw
          · exact h id f (.inr hw)
          · exact h b.var f (.inr hw)
      · exact h id f hused

end Memory

end Footprint
