import Footprint.Proofs.Memory.Steady

/-!
# What the analysis of a function leaves alone in the memory

While a function is analysed blocks stay where they are, variables keep what they
are, names keep their addresses, and the only marks that are added are those of
the function.  `Framed` says this of two memories, of which the first is the one
that the analysis started with.

Two things do change.  Names of the function itself may get a new address, and
so may a name that is written like a member of an array element, if the element
had no address: laying out the element gives its members new blocks.  And a
pointer parameter may become an array, but only before it has a block.  So
`Framed` also says that a parameter without an address has no block, for a set
of parameters that it has as a parameter of its own.
-/

namespace Footprint

/-! ## Marks -/

/-- The marks of `v'` are those of `v` and at most those of `f`. -/
structure Variable.MarkedBy (f : String) (v v' : Variable) : Prop where
  readers : ∀ g, g ≠ f → (g ∈ v'.readers ↔ g ∈ v.readers)
  writers : ∀ g, g ≠ f → (g ∈ v'.writers ↔ g ∈ v.writers)
  read : f ∈ v.readers → f ∈ v'.readers
  written : f ∈ v.writers → f ∈ v'.writers

namespace Variable

variable {f : String} {v v' v'' : Variable}

/-- The variable has a mark of the function. -/
def UsedBy (v : Variable) (f : String) : Prop := f ∈ v.readers ∨ f ∈ v.writers

theorem Blank.not_usedBy (hv : v.Blank) (f : String) : ¬ v.UsedBy f := by
  rintro (h | h)
  · rw [hv.readers] at h
    cases h
  · rw [hv.writers] at h
    cases h

theorem MarkedBy.of_eq (hr : v'.readers = v.readers) (hw : v'.writers = v.writers) :
    v.MarkedBy f v' :=
  ⟨fun _ _ => by rw [hr], fun _ _ => by rw [hw], fun h => hr ▸ h, fun h => hw ▸ h⟩

theorem MarkedBy.trans (h : v.MarkedBy f v') (h' : v'.MarkedBy f v'') : v.MarkedBy f v'' where
  readers g hg := (h'.readers g hg).trans (h.readers g hg)
  writers g hg := (h'.writers g hg).trans (h.writers g hg)
  read hv := h'.read (h.read hv)
  written hv := h'.written (h.written hv)

theorem markedBy_markRead (f : String) (v : Variable) : v.MarkedBy f (v.markRead f) := by
  unfold markRead
  split
  · exact .of_eq rfl rfl
  · exact ⟨fun g hg => by simp [hg], fun _ _ => .rfl, fun _ => by simp, id⟩

theorem markedBy_markWrite (f : String) (v : Variable) : v.MarkedBy f (v.markWrite f) := by
  unfold markWrite
  split
  · exact .of_eq rfl rfl
  · exact ⟨fun _ _ => .rfl, fun g hg => by simp [hg], id, fun _ => by simp⟩

/-- The variable is what it was, but for marks of `f`. -/
structure Stays (f : String) (v v' : Variable) : Prop where
  name : v'.name = v.name
  type : v'.type = v.type
  kind : v'.kind = v.kind
  domain : v'.domain = v.domain
  address : v.address ≠ 0 → v'.address ≠ 0
  marks : v.MarkedBy f v'

theorem stays_markRead (f : String) (v : Variable) : v.Stays f (v.markRead f) := by
  refine ⟨?_, ?_, ?_, ?_, fun h => ?_, markedBy_markRead f v⟩
  all_goals unfold markRead
  all_goals split
  all_goals first | rfl | exact h

theorem stays_markWrite (f : String) (v : Variable) : v.Stays f (v.markWrite f) := by
  refine ⟨?_, ?_, ?_, ?_, fun h => ?_, markedBy_markWrite f v⟩
  all_goals unfold markWrite
  all_goals split
  all_goals first | rfl | exact h

end Variable

namespace Memory

/-! ## Names that may move -/

/-- The name is one of the function `f`, or it had no address, or it is written like a member of
an array element that had no address. -/
def Movable (f : String) (m₀ : Memory) (name : String) : Prop :=
  (∃ rest, name = ownerStart f ++ rest) ∨ m₀.address? name = none ∨
    ∃ start rest, name = start ++ "]." ++ rest ∧ m₀.address? (start ++ "]") = none

/-- The name and those of its members may move. -/
structure MovableRoot (f : String) (m₀ : Memory) (name : String) : Prop where
  root : Movable f m₀ name
  member : ∀ rest, Movable f m₀ (name ++ "." ++ rest)

section Movable

variable {f : String} {m₀ : Memory} {name : String}

theorem movableRoot_owned (rest : String) : MovableRoot f m₀ (ownerStart f ++ rest) where
  root := .inl ⟨rest, rfl⟩
  member t := .inl ⟨rest ++ "." ++ t, by simp only [String.append_assoc]⟩

theorem movableRoot_element {start : String} (h : m₀.address? (start ++ "]") = none) :
    MovableRoot f m₀ (start ++ "]") where
  root := .inr (.inl h)
  member t := .inr (.inr ⟨start, t, by simp only [String.append_assoc]; rfl, h⟩)

theorem MovableRoot.under (h : MovableRoot f m₀ name) (member : String) :
    MovableRoot f m₀ (name ++ "." ++ member) where
  root := h.member member
  member t := by
    have hm := h.member (member ++ "." ++ t)
    simpa only [String.append_assoc] using hm

end Movable

/-! ## Memories that keep what was there -/

/-- What was in `m₀` is in `m`, with at most the marks of `f` added.  The parameters without an
address have no block. -/
structure Framed (f : String) (params : VarId → Prop) (m₀ m : Memory) : Prop where
  next : 0 < m.next
  vars : m₀.vars.size ≤ m.vars.size
  declared : ∀ id, params id → id < m₀.vars.size
  placed : ∀ a b, m.block? a = some b → b.var < m.vars.size
  block : ∀ a b, m₀.block? a = some b → ∃ b', m.block? a = some b' ∧ b'.address = b.address ∧
    b'.parent = b.parent ∧ b'.var = b.var
  same : ∀ a b, m₀.block? a = some b → (m.varOf b.var).type = (m₀.varOf b.var).type ∧
    (m.varOf b.var).kind = (m₀.varOf b.var).kind ∧
    (m.varOf b.var).domain = (m₀.varOf b.var).domain
  marks : ∀ id, (m₀.varOf id).MarkedBy f (m.varOf id)
  name : ∀ id, id < m₀.vars.size → (m.varOf id).name = (m₀.varOf id).name
  address : ∀ id, id < m₀.vars.size → (m₀.varOf id).address ≠ 0 → (m.varOf id).address ≠ 0
  known : ∀ n, m.address? n = none → m₀.address? n = none
  names : ∀ n a, m₀.address? n = some a → ¬ Movable f m₀ n → m.address? n = some a
  unlaid : ∀ id, params id → (m.varOf id).address = 0 → ∀ a b, m.block? a = some b → b.var ≠ id
  /-- A new part has a new variable. -/
  fresh : ∀ a b, m.block? a = some b → m₀.block? a = none → b.parent = 0 ∨ m₀.vars.size ≤ b.var

section Framed

variable {f : String} {params : VarId → Prop} {m₀ m : Memory}

/-- A memory whose blocks have variables, and whose parameters without an address have none. -/
theorem Framed.refl (hnext : 0 < m.next) (hdeclared : ∀ id, params id → id < m.vars.size)
    (hplaced : ∀ a b, m.block? a = some b → b.var < m.vars.size)
    (hunlaid : ∀ id, params id → (m.varOf id).address = 0 →
      ∀ a b, m.block? a = some b → b.var ≠ id) : Framed f params m m where
  next := hnext
  vars := Nat.le_refl _
  declared := hdeclared
  placed := hplaced
  block _ b hb := ⟨b, hb, rfl, rfl, rfl⟩
  same _ _ _ := ⟨rfl, rfl, rfl⟩
  marks _ := .of_eq rfl rfl
  name _ _ := rfl
  address _ _ h := h
  known _ h := h
  names _ _ h _ := h
  unlaid := hunlaid
  fresh a b hb hnone := by
    rw [hb] at hnone
    cases hnone

theorem Framed.var_lt (h : Framed f params m₀ m) {a : Nat} {b : Block}
    (hb : m₀.block? a = some b) : b.var < m.vars.size := by
  obtain ⟨b', hb', _, _, hv⟩ := h.block a b hb
  exact hv ▸ h.placed a b' hb'

variable {id : VarId} {g : Variable → Variable} {v : Variable} {name : String}

/-- A change of one variable stays in the frame. -/
theorem Framed.setVar_of (h : Framed f params m₀ m)
    (hname : ∀ v, (g v).name = v.name) (haddress : ∀ v, v.address ≠ 0 → (g v).address ≠ 0)
    (hmarks : ∀ v : Variable, v.MarkedBy f (g v))
    (hsame : (∀ a b, m.block? a = some b → b.var ≠ id) ∨
      ∀ v, (g v).type = v.type ∧ (g v).kind = v.kind ∧ (g v).domain = v.domain) :
    Framed f params m₀ (m.setVar id g) := by
  have hv : ∀ j, ((m.setVar id g).varOf j).name = (m.varOf j).name ∧
      ((m.varOf j).address ≠ 0 → ((m.setVar id g).varOf j).address ≠ 0) ∧
      (m.varOf j).MarkedBy f ((m.setVar id g).varOf j) := by
    intro j
    rw [varOf_setVar]
    split
    · exact ⟨hname _, haddress _, hmarks _⟩
    · exact ⟨rfl, fun ha => ha, .of_eq rfl rfl⟩
  refine
    { next := h.next, vars := by simpa [setVar] using h.vars, declared := h.declared
      placed := fun a b hb => by simpa [setVar] using h.placed a b hb
      block := h.block
      same := fun a b hb => ?_
      marks := fun j => (h.marks j).trans (hv j).2.2
      name := fun j hj => (hv j).1.trans (h.name j hj)
      address := fun j hj ha => (hv j).2.1 (h.address j hj ha)
      known := h.known, names := h.names
      unlaid :=
        fun j hj ha => h.unlaid j hj (Decidable.byContradiction fun hne => (hv j).2.1 hne ha)
      fresh := h.fresh }
  obtain ⟨b', hb', _, _, hvar⟩ := h.block a b hb
  obtain ⟨ht, hk, hd⟩ := h.same a b hb
  rw [varOf_setVar]
  split
  · next he =>
    obtain ⟨ht', hk', hd'⟩ := hsame.resolve_left (fun hid => hid a b' hb' (hvar.trans he.1.symm)) _
    exact ⟨ht'.trans ht, hk'.trans hk, hd'.trans hd⟩
  · exact ⟨ht, hk, hd⟩

theorem Framed.setVar (h : Framed f params m₀ m) (id : VarId)
    (hg : ∀ v : Variable, v.Stays f (g v)) : Framed f params m₀ (m.setVar id g) :=
  h.setVar_of (fun v => (hg v).name) (fun v => (hg v).address) (fun v => (hg v).marks)
    (.inr fun v => ⟨(hg v).type, (hg v).kind, (hg v).domain⟩)

/-- A parameter without a block may become something else. -/
theorem Framed.setVar_unlaid (h : Framed f params m₀ m)
    (hid : ∀ a b, m.block? a = some b → b.var ≠ id)
    (hname : ∀ v, (g v).name = v.name) (haddress : ∀ v, (g v).address = v.address)
    (hmarks : ∀ v : Variable, v.MarkedBy f (g v)) : Framed f params m₀ (m.setVar id g) :=
  h.setVar_of hname (fun v hne => haddress v ▸ hne) hmarks (.inl hid)

theorem Framed.sameBlocks {m' : Memory} (h : Framed f params m₀ m) (hs : SameBlocks m m') :
    Framed f params m₀ m' := by
  refine
    { next := hs.next ▸ h.next, vars := by rw [hs.vars]; exact h.vars, declared := h.declared
      placed := fun a b' hb' => ?_
      block := fun a b hb => ?_
      same := fun a b hb => by rw [hs.varOf]; exact h.same a b hb
      marks := fun j => by rw [hs.varOf]; exact h.marks j
      name := fun j hj => by rw [hs.varOf]; exact h.name j hj
      address := fun j hj ha => by rw [hs.varOf]; exact h.address j hj ha
      known := fun n hn => h.known n (by rw [address?, hs.names] at hn; exact hn)
      names := fun n a hn hf => by rw [address?, hs.names]; exact h.names n a hn hf
      unlaid := fun j hj ha a b' hb' => ?_
      fresh := fun a b' hb' hnone => ?_ }
  · obtain ⟨b, hb, hv, _⟩ := hs.exists_block hb'
    rw [hv, hs.vars]
    exact h.placed a b hb
  · obtain ⟨b', hb', hadd, hp, hv⟩ := h.block a b hb
    obtain ⟨b'', hb'', hadd', hp', hv'⟩ := hs.block a b' hb'
    exact ⟨b'', hb'', hadd'.trans hadd, hp'.trans hp, hv'.trans hv⟩
  · obtain ⟨b, hb, hv, _⟩ := hs.exists_block hb'
    rw [hs.varOf] at ha
    rw [hv]
    exact h.unlaid j hj ha a b hb
  · obtain ⟨b, hb, hv, hparent⟩ := hs.exists_block hb'
    rw [hv, hparent]
    exact h.fresh a b hb hnone

/-- A variable without marks may be declared. -/
theorem Framed.declare (h : Framed f params m₀ m) (hv : v.Blank) :
    Framed f params m₀ { m with vars := m.vars.push v } := by
  have hold : ∀ j, j < m.vars.size →
      ({ m with vars := m.vars.push v } : Memory).varOf j = m.varOf j := fun j hj => by
    rw [varOf_push, if_neg (Nat.ne_of_lt hj)]
  have hsize : m.vars.size ≤ (m.vars.push v).size := by simp
  refine
    { next := h.next, vars := Nat.le_trans h.vars hsize, declared := h.declared
      placed := fun a b hb => Nat.lt_of_lt_of_le (h.placed a b hb) hsize
      block := h.block
      same := fun a b hb => by rw [hold _ (h.var_lt hb)]; exact h.same a b hb
      marks := fun j => ?_
      name := fun j hj => by rw [hold _ (Nat.lt_of_lt_of_le hj h.vars)]; exact h.name j hj
      address := fun j hj => by rw [hold _ (Nat.lt_of_lt_of_le hj h.vars)]; exact h.address j hj
      known := h.known, names := h.names
      unlaid := fun j hj => ?_
      fresh := h.fresh }
  · rw [varOf_push]
    split
    · next he =>
      have hnone : m₀.varOf j = default := by
        rw [varOf, Array.getElem?_eq_none (by rw [he]; exact h.vars)]
        rfl
      rw [hnone]
      exact .of_eq hv.readers hv.writers
    · exact h.marks j
  · rw [hold j (Nat.lt_of_lt_of_le (h.declared j hj) h.vars)]
    exact h.unlaid j hj

/-- A variable that is no parameter without an address may get a block, under a name that may
move.  The variable of a part is new. -/
theorem Framed.withBlock (h : Framed f params m₀ m) (hname : Movable f m₀ name)
    (hid : id < m.vars.size) (hfree : params id → (m.varOf id).address ≠ 0)
    {parent : Nat} (hparent : parent = 0 ∨ m₀.vars.size ≤ id) :
    Framed f params m₀ (m.withBlock name parent id) where
  next := Nat.succ_pos _
  vars := h.vars
  declared := h.declared
  placed a b hb := by
    cases block?_of_withBlock hb with
    | inl hb => exact h.placed a b hb
    | inr hv => exact hv.1 ▸ hid
  block a b hb := by
    obtain ⟨b', hb', hrest⟩ := h.block a b hb
    exact ⟨b', block?_withBlock_of_some hb' name parent id, hrest⟩
  same := h.same
  marks := h.marks
  name := h.name
  address := h.address
  known n hn := by
    have hn : (m.names.set name m.next).get? n = none := hn
    rw [Table.get?_set] at hn
    split at hn
    · cases hn
    · exact h.known n hn
  names n a hn hf := by
    show (m.names.set name m.next).get? n = some a
    rw [Table.get?_set, if_neg (by rintro rfl; exact hf hname)]
    exact h.names n a hn hf
  unlaid j hj ha a b hb := by
    cases block?_of_withBlock hb with
    | inl hb => exact h.unlaid j hj ha a b hb
    | inr hv =>
      rw [hv.1]
      rintro rfl
      exact hfree hj ha
  fresh a b hb hnone := by
    cases block?_of_withBlock hb with
    | inl hb => exact h.fresh a b hb hnone
    | inr hv =>
      rw [hv.1, hv.2]
      exact hparent

theorem Framed.steady (f : String) (params : VarId → Prop) (m₀ : Memory) :
    Steady f (MovableRoot f m₀) (Framed f params m₀) where
  element hm hn := movableRoot_element (hm.known _ hn)
  member hn := hn.under _
  part hm _ := hm.setVar _ fun _ => ⟨rfl, rfl, rfl, rfl, id, .of_eq rfl rfl⟩
  block {m name parent v} hm hn hv := by
    refine (hm.declare hv).withBlock hn.root (by simp) (fun hp => ?_) (.inr hm.vars)
    exact absurd (Nat.lt_of_lt_of_le (hm.declared _ hp) hm.vars) (Nat.lt_irrefl _)
  pointers hm hs := hm.sameBlocks hs
  read hm := hm.setVar _ (Variable.stays_markRead f)
  write hm := hm.setVar _ (Variable.stays_markWrite f)

/-! ## Laying out variables -/

theorem Framed.weaken (h : Framed f params m₀ m) {params' : VarId → Prop}
    (hp : ∀ id, params' id → params id) : Framed f params' m₀ m :=
  { h with
    declared := fun id hid => h.declared id (hp id hid)
    unlaid := fun id hid => h.unlaid id (hp id hid) }

/-- A parameter that has got an address may have a block. -/
theorem Framed.restore (h : Framed f (fun j => params j ∧ j ≠ id) m₀ m)
    (hid : id < m₀.vars.size) (ha : (m.varOf id).address ≠ 0) : Framed f params m₀ m := by
  refine { h with declared := fun j hj => ?_, unlaid := fun j hj h0 => ?_ }
  · by_cases he : j = id
    · exact he ▸ hid
    · exact h.declared j ⟨hj, he⟩
  · by_cases he : j = id
    · exact absurd (he ▸ h0) ha
    · exact h.unlaid j ⟨hj, he⟩ h0

theorem Framed.allocate_ends (h : Framed f params m₀ m) (T : TypeTable) (hn : MovableRoot f m₀ name)
    (type : String) (hid : id < m.vars.size) (hfree : params id → (m.varOf id).address ≠ 0) :
    Ends (allocate T name type 0 (some id)) m (fun a m' => Framed f params m₀ m' ∧ 0 < a)
      fun _ => Framed f params m₀ := by
  have hends := (Framed.steady f params m₀).spreads.allocate_given (T := T) (t := type) h
    (h.withBlock hn.root hid hfree (.inl rfl)) hn trivial settled_of_keeps
  exact hends.mono (fun a m' hr => ⟨hr.1, hr.2 ▸ h.next⟩) fun _ _ hm' => hm'

theorem Framed.allocateRoot_ends (h : Framed f params m₀ m) (T : TypeTable)
    (hn : MovableRoot f m₀ (m.varOf id).name) (hid : id < m.vars.size) (hfree : ¬ params id) :
    Ends (allocateRoot T id) m
      (fun _ m' => Framed f params m₀ m' ∧ (id < m₀.vars.size → (m'.varOf id).address ≠ 0))
      fun _ => Framed f params m₀ := by
  refine Ends.bind (Ends.get (Ends.bind ?_))
  refine (h.allocate_ends T hn _ hid fun hp => absurd hp hfree).mono ?_ fun _ _ hm' => hm'
  rintro a m' ⟨hm', ha⟩
  have ha : (a : Int) ≠ 0 := by omega
  refine Ends.bind (Ends.modify (Ends.pure ⟨?_, fun hlt => ?_⟩))
  · exact hm'.setVar id fun v => ⟨rfl, rfl, rfl, rfl, fun _ => ha, .of_eq rfl rfl⟩
  · rw [varOf_setVar, if_pos ⟨rfl, Nat.lt_of_lt_of_le hlt hm'.vars⟩]
    exact ha

/-- Laying out a parameter gives it an address. -/
theorem Framed.allocateRoot_param (h : Framed f params m₀ m) (T : TypeTable)
    (hp : params id) (hn : MovableRoot f m₀ (m.varOf id).name) :
    Ends (allocateRoot T id) m (fun _ => Framed f params m₀) fun _ _ => True := by
  have hid : id < m₀.vars.size := h.declared id hp
  have hweak : Framed f (fun j => params j ∧ j ≠ id) m₀ m := h.weaken fun _ hj => hj.1
  refine (hweak.allocateRoot_ends T hn (Nat.lt_of_lt_of_le hid h.vars) fun hj => hj.2 rfl).mono ?_
    fun _ _ _ => trivial
  rintro a m' ⟨hm', ha⟩
  exact hm'.restore hid (ha hid)

theorem Framed.allocatePointee_ends (h : Framed f params m₀ m) (T : TypeTable)
    {rest : String} (hv : v.name = ownerStart f ++ rest) :
    Ends (allocatePointee T v) m (fun _ => Framed f params m₀) fun _ => Framed f params m₀ := by
  have hname : (pointeeVariable T v).name = ownerStart f ++ (rest ++ pointeeEnding) := by
    rw [← String.append_assoc, ← hv]
    rfl
  have hdeclared := h.declare (v := pointeeVariable T v) ⟨rfl, rfl, rfl⟩
  refine Ends.bind_ok rfl ?_
  refine (hdeclared.allocate_ends T (hname ▸ movableRoot_owned _) _ (by simp) ?_).mono
    (fun _ _ hm' => hm'.1) fun _ _ hm' => hm'
  intro hp
  exact absurd (Nat.lt_of_lt_of_le (h.declared _ hp) h.vars) (Nat.lt_irrefl _)

/-- The variable of a parameter of `f`. -/
structure Owned (f : String) (params : VarId → Prop) (m₀ : Memory) (id : VarId) : Prop where
  param : params id
  name : ∃ rest, (m₀.varOf id).name = ownerStart f ++ rest

theorem Framed.name_owned (h : Framed f params m₀ m) (hid : Owned f params m₀ id) :
    ∃ rest, (m.varOf id).name = ownerStart f ++ rest := by
  obtain ⟨rest, hname⟩ := hid.name
  exact ⟨rest, (h.name id (h.declared id hid.param)).trans hname⟩

theorem Framed.allocateParam_ends (h : Framed f params m₀ m) (T : TypeTable)
    (noted : Table String Nat) (hid : Owned f params m₀ id) :
    Ends (allocateParam T noted id) m (fun _ => Framed f params m₀) fun _ _ => True := by
  obtain ⟨rest, hname⟩ := h.name_owned hid
  refine Ends.bind ((h.allocateRoot_param T hid.param (hname ▸ movableRoot_owned rest)).mono ?_
    fun _ _ _ => trivial)
  intro _ m' hm'
  obtain ⟨rest', hname'⟩ := hm'.name_owned hid
  refine Ends.bind (Ends.get ?_)
  dsimp only
  split
  · refine Ends.bind ((hm'.allocatePointee_ends T hname').mono ?_ fun _ _ _ => trivial)
    intro a m'' hm''
    refine Ends.bind ((((Framed.steady f params m₀).addRef a _).ends m'' hm'').mono ?_
      fun _ _ _ => trivial)
    exact fun _ _ hm => Ends.pure hm
  · exact Ends.pure hm'

theorem asArray_address (T : TypeTable) (v : Variable) : (asArray T v).address = v.address := by
  unfold asArray
  split <;> rfl

theorem asArray_markedBy (T : TypeTable) (f : String) (v : Variable) :
    v.MarkedBy f (asArray T v) := by
  unfold asArray
  split
  · exact .of_eq rfl rfl
  · exact .of_eq rfl rfl

/-- A parameter that has no address yet has no block, so it may become an array. -/
theorem Framed.allocateFunctionParams_ends (T : TypeTable) :
    ∀ (ids : List VarId) {m : Memory} (noted : Table String Nat), Framed f params m₀ m →
      (∀ id ∈ ids, Owned f params m₀ id) →
      Ends (allocateFunctionParams T noted ids) m (fun _ => Framed f params m₀) fun _ _ => True
  | [], _, _, h, _ => Ends.pure h
  | id :: ids, m, noted, h, howned => by
    have hid : Owned f params m₀ id := howned id (List.mem_cons_self ..)
    have hrest : ∀ j ∈ ids, Owned f params m₀ j := fun j hj =>
      howned j (List.mem_cons_of_mem id hj)
    refine Ends.bind (Ends.get ?_)
    dsimp only
    split
    · exact allocateFunctionParams_ends T ids noted h hrest
    · next hzero =>
      have hunlaid := h.unlaid id hid.param (Decidable.not_not.mp hzero)
      have harray := h.setVar_unlaid hunlaid (asArray_name T) (asArray_address T)
        (asArray_markedBy T f)
      refine Ends.bind (Ends.modify (Ends.bind ?_))
      refine (harray.allocateParam_ends T noted hid).mono ?_ fun _ _ _ => trivial
      intro noted' m' hm'
      exact allocateFunctionParams_ends T ids noted' hm' hrest

end Framed

end Memory

/-! ## Scanning a body -/

mutual

/-- The tree and all trees in it, each before those in it. -/
def Node.trees : Node → List Node
  | .mk i cs d => .mk i cs d :: Node.treesEach cs

/-- All trees in some trees. -/
def Node.treesEach : List Node → List Node
  | [] => []
  | c :: rest => c.trees ++ Node.treesEach rest

end

namespace Scan

mutual

/-- A scan notes the nodes of a tree one after the other. -/
theorem scan_eq_forM (callee? : String → Option Function) (params : Params) (n : Node) :
    scan callee? params n = n.trees.forM (noteNode callee? params) := by
  obtain ⟨i, cs, d⟩ := n
  rw [scan, Node.trees, scanEach_eq_forM callee? params cs]
  rfl

theorem scanEach_eq_forM (callee? : String → Option Function) (params : Params) (ns : List Node) :
    scanEach callee? params ns = (Node.treesEach ns).forM (noteNode callee? params) := by
  cases ns with
  | nil => rfl
  | cons n ns =>
    rw [scanEach, Node.treesEach, scan_eq_forM callee? params n, scanEach_eq_forM callee? params ns]
    exact List.forM_append.symm

end

/-- At a node nothing is noted, or an index, or what a call passes on. -/
theorem noteNode_cases (callee? : String → Option Function) (params : Params) (n : Node) :
    noteNode callee? params n = pure ⟨⟩ ∨
      (∃ base index, noteNode callee? params n = noteIndex params base index) ∨
      ∃ callee pairs, noteNode callee? params n = notePassed params callee pairs := by
  unfold noteNode
  split
  · split
    · exact .inr (.inl ⟨_, _, rfl⟩)
    · exact .inl rfl
  · unfold noteCall
    dsimp only
    split
    · exact .inl rfl
    · split
      · exact .inl rfl
      · exact .inr (.inr ⟨_, _, rfl⟩)
  · exact .inl rfl

/-- The flags that a scan sets may be set in a memory with the property. -/
def Flagging (J : Memory → Prop) : Prop :=
  ∀ m id (length : Variable → Int), J m →
    J (m.setVar id fun v => { v with usedAsArray := true, usedLength := length v })

/-- The step keeps the property, and it does not stop since something is not there. -/
def Flags (J : Memory → Prop) (x : MemM Unit) : Prop :=
  ∀ m, J m → Ends x m (fun _ => J) fun e m' => ¬ e.OutOfBounds ∧ J m'

section Flagging

variable {J : Memory → Prop}

theorem flags_pure : Flags J (pure ⟨⟩) := fun _ hm => Ends.pure hm

theorem Flags.seq {x y : MemM Unit} (hx : Flags J x) (hy : Flags J y) : Flags J (do x; y) :=
  fun m hm => Ends.bind ((hx m hm).mono (fun _ m' hm' => hy m' hm') fun _ _ he => he)

theorem Flags.forM {α : Type} {f : α → MemM Unit} :
    ∀ {as : List α}, (∀ a ∈ as, Flags J (f a)) → Flags J (as.forM f)
  | [], _ => flags_pure
  | a :: _, h =>
    (h a (List.mem_cons_self ..)).seq (forM fun b hb => h b (List.mem_cons_of_mem a hb))

variable (h : Flagging J)

include h

theorem Flagging.change (id : VarId) (length : Variable → Int) :
    Flags J (Memory.change id fun v => { v with usedAsArray := true, usedLength := length v }) :=
  fun m hm => Ends.modify (h m id length hm)

theorem Flagging.noteIndex (params : Params) (base : String) (index : Node) :
    Flags J (noteIndex params base index) := by
  unfold Scan.noteIndex
  split
  · exact flags_pure
  · refine (h.change _ Variable.usedLength).seq ?_
    split
    · exact flags_pure
    · exact fun m hm => Ends.bind (Ends.orFault (fun i _ => h.change _ _ m hm) fun _ he =>
        ⟨(Memory.readInt_fault he).2, hm⟩)

theorem Flagging.noteArgument (params : Params) (callee : Function) (param : Label)
    (argument : Node) : Flags J (noteArgument params callee param argument) := by
  refine fun m hm => Ends.bind (Ends.get ?_)
  split
  · exact Ends.pure hm
  · split
    · split
      · exact h.change _ _ m hm
      · exact Ends.pure hm
    · exact Ends.pure hm

theorem Flagging.notePassed (params : Params) (callee : Function) (args : List (Label × Node)) :
    Flags J (notePassed params callee args) := by
  induction args with
  | nil => exact flags_pure
  | cons pair rest ih => exact (h.noteArgument params callee pair.1 pair.2).seq ih

theorem Flagging.scan (callee? : String → Option Function) (params : Params) (n : Node) :
    Flags J (scan callee? params n) := by
  rw [scan_eq_forM]
  refine .forM fun k _ => ?_
  rcases noteNode_cases callee? params k with hk | ⟨base, index, hk⟩ | ⟨callee, pairs, hk⟩
  · exact hk ▸ flags_pure
  · exact hk ▸ h.noteIndex params base index
  · exact hk ▸ h.notePassed params callee pairs

theorem Flagging.scanFunction (callee? : String → Option Function) (f : Function) :
    Keeps J (scanFunction callee? f) := by
  refine .bind .get fun m => .bind (.orFault _) fun params => ?_
  split
  · split
    · exact .pure _
    · exact ⟨fun m hm => (h.scan callee? params _ m hm).mono (fun _ _ hm' => hm')
        fun _ _ he => he.2⟩
  · exact .pure _

end Flagging

end Scan

theorem Memory.Framed.flagging (f : String) (params : VarId → Prop) (m₀ : Memory) :
    Scan.Flagging (Framed f params m₀) :=
  fun _ id _ hm => hm.setVar id fun _ => ⟨rfl, rfl, rfl, rfl, fun ha => ha, .of_eq rfl rfl⟩

end Footprint
