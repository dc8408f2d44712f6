import Footprint.Memory.Allocate

/-!
# Addresses that lead where they should

A memory is linked if its addresses, names and parts fit together.  The block at
a place has that place as its address and an earlier block, or none, as its
parent.  The address of a name is that of a block with the name, and the address
of a part that of a block with the name of the part.  The blocks that are noted
as changed are blocks of the memory.

A part is given its address before the block is there.  In between the memory
*owes* a name: the next block has to have it.  `Linked` has the name that is
owed as a parameter, and `append` pays it.

Nothing that the memory does takes a name away from a block.  This is `Grows`.
-/

namespace Footprint

/-! ## Changing one entry of an array -/

variable {α : Type} {xs : Array α} {f : α → α}

theorem modify_eq_self {i : Nat} (h : ∀ x, xs[i]? = some x → f x = x) : xs.modify i f = xs := by
  refine Array.ext_getElem? fun j => ?_
  rw [Array.getElem?_modify]
  split
  · next hj =>
    subst hj
    cases hx : xs[i]? with
    | none => rfl
    | some x => exact congrArg some (h x hx)
  · rfl

/-- What all entries have, they have after one of them is changed. -/
theorem forall_mem_modify {P : α → Prop} {i : Nat}
    (h : ∀ x ∈ xs, P x) (hf : ∀ x, P x → P (f x)) : ∀ x ∈ xs.modify i f, P x := by
  intro x hx
  obtain ⟨j, hj⟩ := Array.getElem?_of_mem hx
  rw [Array.getElem?_modify] at hj
  split at hj
  · obtain ⟨y, hy, rfl⟩ := Option.map_eq_some_iff.mp hj
    exact hf y (h y (Array.mem_of_getElem? hy))
  · exact h x (Array.mem_of_getElem? hj)

theorem map_modify {β : Type} {p : α → β} (h : ∀ x, p (f x) = p x) (xs : Array α)
    (i : Nat) : (xs.modify i f).map p = xs.map p := by
  refine Array.ext_getElem? fun j => ?_
  rw [Array.getElem?_map, Array.getElem?_map, Array.getElem?_modify]
  split
  · cases xs[j]? with
    | none => rfl
    | some x => exact congrArg some (h x)
  · rfl

namespace Memory

/-- The name of the variable at an address. -/
def nameAt? (m : Memory) (a : Nat) : Option String :=
  (m.block? a).map fun b => (m.varOf b.var).name

variable {m m' m'' : Memory}

theorem nameAt?_of_block {a : Nat} {b : Block} (hb : m.block? a = some b) :
    m.nameAt? a = some (m.varOf b.var).name := by
  rw [nameAt?, hb]
  rfl

/-- The block at the address has the name, or it is the next one and the name is owed. -/
def Holds (m : Memory) (owed : Option String) (a : Nat) (name : String) : Prop :=
  m.nameAt? a = some name ∨ (owed = some name ∧ a = m.next)

/-- The block fits in its place. -/
structure Placed (m : Memory) (i : Nat) (b : Block) : Prop where
  address : b.address = i
  parent : b.parent < i
  var : b.var < m.vars.size

/-- The memory is linked, but for a name that may be owed. -/
structure Linked (owed : Option String) (m : Memory) : Prop where
  next : m.next = m.blocks.size
  zero : m.blocks[0]? = some none
  block : ∀ i, 0 < i → i < m.next → ∃ b, m.block? i = some b ∧ m.Placed i b
  name : ∀ n a, m.names.get? n = some a → m.nameAt? a = some n
  part : ∀ id s a, (m.varOf id).parts.get? s = some a →
    m.Holds owed a ((m.varOf id).name ++ s.suffix)
  dirty : ∀ a ∈ m.dirty, ∃ b, m.block? a = some b

/-- Blocks and variables keep their names. -/
structure Grows (m m' : Memory) : Prop where
  next : m.next ≤ m'.next
  vars : m.vars.size ≤ m'.vars.size
  name : ∀ a n, m.nameAt? a = some n → m'.nameAt? a = some n
  var : ∀ id, id < m.vars.size → (m'.varOf id).name = (m.varOf id).name

theorem Grows.refl (m : Memory) : Grows m m :=
  ⟨Nat.le_refl _, Nat.le_refl _, fun _ _ h => h, fun _ _ => rfl⟩

theorem Grows.trans (h : Grows m m') (h' : Grows m' m'') : Grows m m'' where
  next := Nat.le_trans h.next h'.next
  vars := Nat.le_trans h.vars h'.vars
  name a n ha := h'.name a n (h.name a n ha)
  var id hid := (h'.var id (Nat.lt_of_lt_of_le hid h.vars)).trans (h.var id hid)

section Linked

variable {m m' : Memory} {owed owed' : Option String} {a : Nat} {b : Block} {n name : String}
variable {id : VarId} {f : Variable → Variable}

theorem block?_eq_some (h : m.block? a = some b) : m.blocks[a]? = some (some b) := by
  unfold block? at h
  exact Option.join_eq_some_iff.mp h

theorem Linked.lt_next_of_block (h : Linked owed m)
    (hb : m.block? a = some b) : 0 < a ∧ a < m.next := by
  have hb := block?_eq_some hb
  refine ⟨Nat.pos_of_ne_zero ?_, ?_⟩
  · rintro rfl
    rw [h.zero] at hb
    cases hb
  · rw [h.next]
    exact (Array.getElem?_eq_some_iff.mp hb).1

theorem Linked.lt_next (h : Linked owed m) (ha : m.nameAt? a = some n) : 0 < a ∧ a < m.next := by
  obtain ⟨b, hb, _⟩ := Option.map_eq_some_iff.mp ha
  exact h.lt_next_of_block hb

theorem Linked.pos (h : Linked owed m) : 0 < m.next := by
  rw [h.next]
  exact (Array.getElem?_eq_some_iff.mp h.zero).1

/-! ## Changing variables -/

theorem varOf_setVar (m : Memory) (id j : VarId) (f : Variable → Variable) :
    (m.setVar id f).varOf j =
      if id = j ∧ j < m.vars.size then f (m.varOf j) else m.varOf j := by
  unfold varOf setVar
  rw [Array.getElem?_modify]
  by_cases hj : id = j
  · by_cases hlt : j < m.vars.size
    · simp [hj, hlt]
    · simp [hj, hlt]
  · simp [hj]

theorem setVar_eq_self {m : Memory} (h : f (m.varOf id) = m.varOf id) : m.setVar id f = m := by
  rw [setVar, modify_eq_self fun v hv => ?_]
  rwa [varOf, hv] at h

theorem name_setVar (m : Memory) (id j : VarId)
    (hf : ∀ v, (f v).name = v.name) : ((m.setVar id f).varOf j).name = (m.varOf j).name := by
  rw [varOf_setVar]
  split
  · exact hf _
  · rfl

theorem nameAt?_setVar (m : Memory) (id : VarId)
    (hf : ∀ v, (f v).name = v.name) (a : Nat) : (m.setVar id f).nameAt? a = m.nameAt? a := by
  show (m.block? a).map _ = (m.block? a).map _
  simp only [name_setVar m id _ hf]

theorem grows_setVar (m : Memory) (id : VarId)
    (hf : ∀ v, (f v).name = v.name) : Grows m (m.setVar id f) where
  next := Nat.le_refl _
  vars := by simp [setVar]
  name a n ha := by rwa [nameAt?_setVar m id hf]
  var j _ := name_setVar m id j hf

/-- A change of a variable that keeps its name, and after which its parts are held. -/
theorem Linked.setVar (h : Linked owed m)
    (hf : ∀ v, (f v).name = v.name) (ho : ∀ a n, m.Holds owed a n → m.Holds owed' a n)
    (hp : ∀ s a, (f (m.varOf id)).parts.get? s = some a →
      m.Holds owed' a ((m.varOf id).name ++ s.suffix)) : Linked owed' (m.setVar id f) where
  next := h.next
  zero := h.zero
  block i hi hn := by
    obtain ⟨b, hb, hplaced⟩ := h.block i hi hn
    exact ⟨b, hb, hplaced.address, hplaced.parent, by simpa [Memory.setVar] using hplaced.var⟩
  name n a ha := by
    rw [nameAt?_setVar m id hf]
    exact h.name n a ha
  part j s a ha := by
    have hold : m.Holds owed' a ((m.varOf j).name ++ s.suffix) := by
      rw [varOf_setVar] at ha
      split at ha
      · next hj =>
        obtain ⟨rfl, _⟩ := hj
        exact hp s a ha
      · exact ho _ _ (h.part j s a ha)
    rw [name_setVar m id j hf]
    unfold Holds
    rw [nameAt?_setVar m id hf]
    exact hold
  dirty := h.dirty

theorem Linked.setVar_same (h : Linked owed m) (hf : ∀ v, (f v).name = v.name)
    (hp : ∀ v, (f v).parts = v.parts) : Linked owed (m.setVar id f) := by
  refine h.setVar hf (fun _ _ hh => hh) fun s a ha => ?_
  rw [hp] at ha
  exact h.part id s a ha

/-! ## Changing blocks -/

/-- The two memories differ at most in the pointers that blocks know of. -/
structure SameBlocks (m m' : Memory) : Prop where
  vars : m'.vars = m.vars
  size : m'.blocks.size = m.blocks.size
  next : m'.next = m.next
  names : m'.names = m.names
  zero : m.blocks[0]? = some none → m'.blocks[0]? = some none
  block : ∀ a b, m.block? a = some b → ∃ b', m'.block? a = some b' ∧ b'.address = b.address ∧
    b'.parent = b.parent ∧ b'.var = b.var
  noBlock : ∀ a, m.block? a = none → m'.block? a = none
  dirty : ∀ a ∈ m'.dirty, a ∈ m.dirty ∨ ∃ b, m.block? a = some b

theorem SameBlocks.nameAt? (h : SameBlocks m m') (a : Nat) : m'.nameAt? a = m.nameAt? a := by
  unfold Memory.nameAt?
  cases hb : m.block? a with
  | none => rw [h.noBlock a hb]; rfl
  | some b =>
    obtain ⟨b', hb', _, _, hv⟩ := h.block a b hb
    rw [hb', Option.map_some, Option.map_some, hv, varOf, varOf, h.vars]

theorem SameBlocks.varOf (h : SameBlocks m m') (id : VarId) : m'.varOf id = m.varOf id := by
  rw [Memory.varOf, Memory.varOf, h.vars]

theorem Linked.sameBlocks (h : Linked owed m) (hs : SameBlocks m m') : Linked owed m' where
  next := by rw [hs.next, hs.size, h.next]
  zero := hs.zero h.zero
  block i hi hn := by
    rw [hs.next] at hn
    obtain ⟨b, hb, hplaced⟩ := h.block i hi hn
    obtain ⟨b', hb', ha, hp, hv⟩ := hs.block i b hb
    exact ⟨b', hb', ha.trans hplaced.address, hp ▸ hplaced.parent, by
      rw [hv, hs.vars]; exact hplaced.var⟩
  name n a ha := by
    rw [hs.nameAt?]
    exact h.name n a (hs.names ▸ ha)
  part id s a ha := by
    rw [hs.varOf] at ha ⊢
    unfold Holds
    rw [hs.nameAt?, hs.next]
    exact h.part id s a ha
  dirty a ha := by
    have hb : ∃ b, m.block? a = some b := by
      cases hs.dirty a ha with
      | inl hd => exact h.dirty a hd
      | inr hb => exact hb
    obtain ⟨b, hb⟩ := hb
    obtain ⟨b', hb', _⟩ := hs.block a b hb
    exact ⟨b', hb'⟩

theorem SameBlocks.grows (h : SameBlocks m m') : Grows m m' where
  next := Nat.le_of_eq h.next.symm
  vars := Nat.le_of_eq (congrArg Array.size h.vars.symm)
  name a n ha := by rwa [h.nameAt?]
  var id _ := by rw [h.varOf]

theorem SameBlocks.trans {m'' : Memory} (h : SameBlocks m m') (h' : SameBlocks m' m'') :
    SameBlocks m m'' where
  vars := h'.vars.trans h.vars
  size := h'.size.trans h.size
  next := h'.next.trans h.next
  names := h'.names.trans h.names
  zero h₀ := h'.zero (h.zero h₀)
  block a b hb := by
    obtain ⟨b', hb', ha, hp, hv⟩ := h.block a b hb
    obtain ⟨b'', hb'', ha', hp', hv'⟩ := h'.block a b' hb'
    exact ⟨b'', hb'', ha'.trans ha, hp'.trans hp, hv'.trans hv⟩
  noBlock a hb := h'.noBlock a (h.noBlock a hb)
  dirty a ha := by
    cases h'.dirty a ha with
    | inl hd => exact h.dirty a hd
    | inr hb =>
      cases hm : m.block? a with
      | none =>
        obtain ⟨b', hb'⟩ := hb
        rw [h.noBlock a hm] at hb'
        cases hb'
      | some b => exact .inr ⟨b, rfl⟩

theorem sameBlocks_setBlock (m : Memory) (a : Nat) {f : Block → Block}
    (hf : ∀ b, (f b).address = b.address ∧ (f b).parent = b.parent ∧ (f b).var = b.var) :
    SameBlocks m (m.setBlock a f) := by
  have hget : ∀ i, (m.setBlock a f).block? i = (m.block? i).map (if a = i then f else id) := by
    intro i
    unfold block? setBlock
    rw [Array.getElem?_modify]
    by_cases hi : a = i
    · cases m.blocks[i]? with
      | none => simp [hi]
      | some b => simp [hi]
    · simp [hi]
  refine ⟨rfl, by simp [setBlock], rfl, rfl, ?_, ?_, ?_, fun _ ha => .inl ha⟩
  · intro h0
    simp only [setBlock, Array.getElem?_modify, h0]
    split <;> rfl
  · intro i b hb
    rw [hget, hb]
    by_cases hi : a = i
    · exact ⟨f b, by simp [hi], hf b⟩
    · exact ⟨b, by simp [hi], rfl, rfl, rfl⟩
  · intro i hb
    rw [hget, hb]
    rfl

theorem sameBlocks_dirty (m : Memory) {dirty : List Nat}
    (h : ∀ a ∈ dirty, a ∈ m.dirty ∨ ∃ b, m.block? a = some b) : SameBlocks m { m with dirty } :=
  ⟨rfl, rfl, rfl, rfl, id, fun _ b hb => ⟨b, hb, rfl, rfl, rfl⟩, fun _ hb => hb, h⟩

theorem sameBlocks_touch (hb : m.block? a = some b) : SameBlocks m (m.touch a) := by
  unfold touch
  split
  · exact sameBlocks_dirty m fun _ ha => .inl ha
  · refine sameBlocks_dirty m fun c hc => ?_
    cases hc with
    | head => exact .inr ⟨b, hb⟩
    | tail _ hc => exact .inl hc

/-- The pointers to a block change, and the block is noted as changed. -/
theorem sameBlocks_setPointers (hb : m.block? a = some b) (f : NameSet → NameSet) :
    SameBlocks m ((m.setBlock a fun b => { b with pointers := f b.pointers }).touch a) := by
  have hs := sameBlocks_setBlock m a (f := fun b => { b with pointers := f b.pointers })
    fun _ => ⟨rfl, rfl, rfl⟩
  obtain ⟨b', hb', _⟩ := hs.block a b hb
  exact hs.trans (sameBlocks_touch hb')

/-! ## New variables and blocks -/

theorem varOf_push (m : Memory) (v : Variable) (j : VarId) :
    ({ m with vars := m.vars.push v } : Memory).varOf j =
      if j = m.vars.size then v else m.varOf j := by
  unfold varOf
  rw [Array.getElem?_push]
  split
  · rfl
  · rfl

theorem nameAt?_push (h : Linked owed m) (v : Variable) (ha : m.nameAt? a = some n) :
    ({ m with vars := m.vars.push v } : Memory).nameAt? a = some n := by
  obtain ⟨hpos, hlt⟩ := h.lt_next ha
  obtain ⟨b, hb, hplaced⟩ := h.block a hpos hlt
  have hne : b.var ≠ m.vars.size := Nat.ne_of_lt hplaced.var
  unfold nameAt? at ha ⊢
  show (m.block? a).map _ = _
  rw [hb] at ha ⊢
  rw [Option.map_some, varOf_push, if_neg hne]
  exact ha

/-- A variable without parts may be declared. -/
theorem Linked.declare (h : Linked owed m) {v : Variable} (hv : v.parts = {}) :
    Linked owed { m with vars := m.vars.push v } where
  next := h.next
  zero := h.zero
  block i hi hn := by
    obtain ⟨b, hb, hplaced⟩ := h.block i hi hn
    refine ⟨b, hb, hplaced.address, hplaced.parent, ?_⟩
    rw [Array.size_push]
    exact Nat.lt_succ_of_lt hplaced.var
  name n a ha := nameAt?_push h v (h.name n a ha)
  part id s a ha := by
    rw [varOf_push] at ha ⊢
    split at ha
    · rw [hv] at ha
      cases ha
    · next hid =>
      rw [if_neg hid]
      cases h.part id s a ha with
      | inl hn => exact .inl (nameAt?_push h v hn)
      | inr ho => exact .inr ho
  dirty := h.dirty

theorem grows_declare (h : Linked owed m) (v : Variable) :
    Grows m { m with vars := m.vars.push v } where
  next := Nat.le_refl _
  vars := by simp
  name a n ha := nameAt?_push h v ha
  var id hid := by rw [varOf_push, if_neg (Nat.ne_of_lt hid)]

theorem block?_withBlock (h : Linked owed m) (name : String) (parent : Nat) (id : VarId)
    (a : Nat) :
    (m.withBlock name parent id).block? a =
      if a = m.next then some { address := m.next, parent, var := id } else m.block? a := by
  unfold block? withBlock
  rw [Array.getElem?_push, h.next]
  split
  · rfl
  · rfl

theorem nameAt?_withBlock (h : Linked owed m) (hname : (m.varOf id).name = name) (parent a : Nat) :
    (m.withBlock name parent id).nameAt? a = if a = m.next then some name else m.nameAt? a := by
  unfold nameAt?
  rw [block?_withBlock h]
  split
  · rw [← hname]
    rfl
  · rfl

/-- Where the next block has no name yet, others keep theirs when it is added. -/
theorem nameAt?_withBlock_of_some (h : Linked owed m)
    (hname : (m.varOf id).name = name) (parent : Nat)
    (ha : m.nameAt? a = some n) : (m.withBlock name parent id).nameAt? a = some n := by
  rw [nameAt?_withBlock h hname, if_neg (Nat.ne_of_lt (h.lt_next ha).2), ha]

/-- A new block pays the name that was owed. -/
theorem Linked.withBlock (h : Linked owed m) {parent : Nat} (howed : ∀ n, owed = some n → n = name)
    (hid : id < m.vars.size) (hname : (m.varOf id).name = name) (hparent : parent < m.next) :
    Linked none (m.withBlock name parent id) where
  next := by simp [Memory.withBlock, h.next]
  zero := by
    have hsize := (Array.getElem?_eq_some_iff.mp h.zero).1
    simp only [Memory.withBlock, Array.getElem?_push]
    rw [if_neg (Nat.ne_of_lt hsize)]
    exact h.zero
  block i hi hn := by
    rw [block?_withBlock h]
    split
    · next he =>
      subst he
      exact ⟨_, rfl, rfl, hparent, hid⟩
    · next hne =>
      have hlt : i < m.next := Nat.lt_of_le_of_ne (Nat.le_of_lt_succ hn) hne
      obtain ⟨b, hb, hplaced⟩ := h.block i hi hlt
      exact ⟨b, hb, hplaced.address, hplaced.parent, hplaced.var⟩
  name n a ha := by
    have ha : (m.names.set name m.next).get? n = some a := ha
    rw [Table.get?_set] at ha
    split at ha
    · next he =>
      cases ha
      rw [nameAt?_withBlock h hname, if_pos rfl, he]
    · exact nameAt?_withBlock_of_some h hname parent (h.name n a ha)
  part j s a ha := by
    refine .inl ?_
    cases h.part j s a ha with
    | inl hn => exact nameAt?_withBlock_of_some h hname parent hn
    | inr ho =>
      obtain ⟨ho, rfl⟩ := ho
      rw [nameAt?_withBlock h hname, if_pos rfl, ← howed _ ho]
      rfl
  dirty a ha := by
    obtain ⟨b, hb⟩ := h.dirty a ha
    refine ⟨b, ?_⟩
    rw [block?_withBlock h, if_neg (Nat.ne_of_lt (h.lt_next_of_block hb).2), hb]

theorem grows_withBlock (h : Linked owed m)
    (hname : (m.varOf id).name = name) (parent : Nat) : Grows m (m.withBlock name parent id) where
  next := Nat.le_succ _
  vars := Nat.le_refl _
  name _ _ ha := nameAt?_withBlock_of_some h hname parent ha
  var _ _ := rfl

/-! ## Parts -/

/-- A part is given an address that holds its name. -/
theorem Linked.setPart (h : Linked none m) {s : Slot}
    (ha : m.Holds owed a ((m.varOf id).name ++ s.suffix)) :
    Linked owed (m.setVar id fun v => { v with parts := v.parts.set s a }) := by
  refine h.setVar (fun _ => rfl) ?_ ?_
  · intro b n hn
    cases hn with
    | inl hn => exact .inl hn
    | inr ho => cases ho.1
  · intro s' b hb
    have hb : ((m.varOf id).parts.set s a).get? s' = some b := hb
    rw [Table.get?_set] at hb
    split at hb
    · next he =>
      cases hb
      rw [← he]
      exact ha
    · cases h.part id s' b hb with
      | inl hn => exact .inl hn
      | inr ho => cases ho.1

end Linked

/-- The memory is linked again, and nothing that was there has lost its name. -/
structure After (m m' : Memory) : Prop where
  linked : Linked none m'
  grows : Grows m m'

theorem After.refl (h : Linked none m) : After m m := ⟨h, .refl m⟩

theorem After.trans (h : After m m') (h' : After m' m'') : After m m'' :=
  ⟨h'.linked, h.grows.trans h'.grows⟩

theorem After.setVar (h : After m m') (id : VarId) {f : Variable → Variable}
    (hf : ∀ v, (f v).name = v.name) (hp : ∀ v, (f v).parts = v.parts) : After m (m'.setVar id f) :=
  ⟨h.linked.setVar_same hf hp, h.grows.trans (grows_setVar m' id hf)⟩

theorem After.sameBlocks (h : After m m') (hs : SameBlocks m' m'') : After m m'' :=
  ⟨h.linked.sameBlocks hs, h.grows.trans hs.grows⟩

theorem linked_empty : Linked none {} where
  next := rfl
  zero := rfl
  block i hi hn := absurd hn (by show ¬ i < 1; omega)
  name _ _ h := nomatch h
  part _ _ _ h := nomatch h
  dirty _ h := nomatch h

end Memory

end Footprint
