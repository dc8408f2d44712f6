import Footprint.Proofs.Memory.Layout

/-!
# Steps that leave variables as they are

Reads, writes and the records of pointers change marks and nothing else.
`Marked` says that a memory differs from another one in marks only.  Such steps
come to an end without a fault if they are asked for blocks that exist.

A variable that takes one block is laid out without a fault too.
-/

namespace Footprint

/-- The variable without its marks. -/
def Variable.unmarked (v : Variable) : Variable := { v with readers := {}, writers := {} }

/-- What does not depend on the marks is the same for variables that differ in marks only. -/
theorem Variable.eq_of_unmarked {α : Type} {v w : Variable} (h : v.unmarked = w.unmarked)
    {g : Variable → α} (hg : ∀ v, g v.unmarked = g v) : g v = g w := by
  rw [← hg v, h, hg w]

namespace Memory

/-- The memory is linked, and the same as another one but for marks and the pointers that blocks
know of. -/
structure Marked (m₀ m : Memory) : Prop where
  linked : Linked none m
  names : m.names = m₀.names
  next : m.next = m₀.next
  size : m.vars.size = m₀.vars.size
  var : ∀ id, (m.varOf id).unmarked = (m₀.varOf id).unmarked
  block : ∀ a, (m.block? a).map Block.var = (m₀.block? a).map Block.var

variable {m : Memory}

theorem Marked.refl (h : Linked none m) : Marked m m :=
  ⟨h, rfl, rfl, rfl, fun _ => rfl, fun _ => rfl⟩

section Marked

variable {m₀ m m' : Memory}

theorem Marked.trans (h : Marked m₀ m) (h' : Marked m m') : Marked m₀ m' where
  linked := h'.linked
  names := h'.names.trans h.names
  next := h'.next.trans h.next
  size := h'.size.trans h.size
  var id := (h'.var id).trans (h.var id)
  block a := (h'.block a).trans (h.block a)

theorem Marked.setVar (h : Marked m₀ m) (id : VarId) {f : Variable → Variable}
    (hf : ∀ v, (f v).unmarked = v.unmarked) : Marked m₀ (m.setVar id f) where
  linked := h.linked.setVar_same (fun v => Variable.eq_of_unmarked (hf v) fun _ => rfl)
    fun v => Variable.eq_of_unmarked (hf v) fun _ => rfl
  names := h.names
  next := h.next
  size := by rw [← h.size, Memory.setVar, Array.size_modify]
  var j := by
    rw [← h.var j, varOf_setVar]
    split
    · exact hf _
    · rfl
  block := h.block

theorem Marked.sameBlocks (h : Marked m₀ m) (hs : SameBlocks m m') : Marked m₀ m' where
  linked := h.linked.sameBlocks hs
  names := hs.names.trans h.names
  next := hs.next.trans h.next
  size := by rw [hs.vars, h.size]
  var id := by rw [hs.varOf, h.var]
  block a := by
    rw [← h.block a]
    cases hb : m.block? a with
    | none => rw [hs.noBlock a hb]
    | some b =>
      obtain ⟨b', hb', _, _, hv⟩ := hs.block a b hb
      rw [hb', Option.map_some, Option.map_some, hv]

end Marked

/-! ## Reads and writes -/

section Marks

variable {m₀ m : Memory} {f : Variable → Variable} {a : Nat} {b : Block}

theorem heldAt_ok (h : Linked none m) (hb : m.block? a = some b) :
    heldAt (a : Int) m = .ok (a, b) m := by
  obtain ⟨_, hlt⟩ := h.lt_next (n := (m.varOf b.var).name) (by rw [nameAt?, hb]; rfl)
  rw [h.next] at hlt
  have hpos : m.position (a : Int) = .ok a := by
    have hneg : ¬ (a : Int) < 0 := by omega
    have hin : ¬ ((a : Int) < 0 || (m.blocks.size : Int) ≤ a) = true := by simp; omega
    unfold position
    dsimp only
    rw [if_neg hneg, if_neg hin]
    rfl
  refine (bind_of_ok rfl).trans ((bind_of_ok (orFault_of_ok hpos m)).trans ?_)
  rw [hb]
  rfl

theorem markAt_marked (hf : ∀ v, (f v).unmarked = v.unmarked) (h : Marked m₀ m)
    (hb : m.block? a = some b) : Runs (markAt f a) m fun _ => Marked m₀ :=
  .bind_ok (heldAt_ok h.linked hb) (Ends.modify (h.setVar b.var hf))

theorem markPointer_marked (hf : ∀ v, (f v).unmarked = v.unmarked) (h : Marked m₀ m)
    (p : String) : Runs (markPointer f p) m fun _ => Marked m₀ := by
  refine .bind_ok rfl ?_
  cases ha : m.address? p with
  | none => exact .pure h
  | some a =>
    obtain ⟨b, hb, _⟩ := Option.map_eq_some_iff.mp (h.linked.name p a ha)
    exact markAt_marked hf h hb

theorem markPointers_marked (hf : ∀ v, (f v).unmarked = v.unmarked) :
    ∀ (ps : List String) {m : Memory}, Marked m₀ m → Runs (markPointers f ps) m fun _ => Marked m₀
  | [], _, h => .pure h
  | p :: ps, _, h =>
      Runs.bind (markPointer_marked hf h p) fun _ _ h' => markPointers_marked hf ps h'

theorem unmarked_markRead (f : String) (v : Variable) : (v.markRead f).unmarked = v.unmarked := by
  unfold Variable.markRead
  split <;> rfl

theorem unmarked_markWrite (f : String) (v : Variable) :
    (v.markWrite f).unmarked = v.unmarked := by
  unfold Variable.markWrite
  split <;> rfl

theorem Marked.exists_block {b₀ : Block} (h : Marked m₀ m) (hb : m₀.block? a = some b₀) :
    ∃ b, m.block? a = some b ∧ b.var = b₀.var := by
  have hmap := h.block a
  rw [hb] at hmap
  exact Option.map_eq_some_iff.mp hmap

theorem read_marked (h : Linked none m) (hb : m.block? a = some b)
    (f : String) : Runs (read a f) m fun _ => Marked m := by
  refine .bind_ok (heldAt_ok h hb) (.bind_ok rfl ?_)
  split
  · exact .pure (.refl h)
  · refine Runs.bind (markPointers_marked (unmarked_markRead f) _ (.refl h)) ?_
    intro _ m' h'
    obtain ⟨b', hb', _⟩ := h'.exists_block hb
    exact markAt_marked (unmarked_markRead f) h' hb'

theorem write_marked (h : Linked none m) (hb : m.block? a = some b)
    (f : String) : Runs (write a f) m fun _ => Marked m := by
  refine .bind_ok (heldAt_ok h hb) (.bind_ok rfl ?_)
  refine Runs.bind (markPointers_marked (unmarked_markWrite f) _ (.refl h)) ?_
  intro _ m' h'
  obtain ⟨b', hb', _⟩ := h'.exists_block hb
  exact markAt_marked (unmarked_markWrite f) h' hb'

theorem addRef_marked (h : Linked none m) (hb : m.block? a = some b)
    (pointer : String) : Runs (addRef a pointer) m fun _ => Marked m :=
  .bind_ok (blockAt_ok h hb)
    (Ends.modify ((Marked.refl h).sameBlocks (sameBlocks_setPointers hb fun s => s.insert pointer)))

theorem removeRef_marked (h : Linked none m) (hb : m.block? a = some b)
    (pointer : String) : Runs (removeRef a pointer) m fun _ => Marked m :=
  .bind_ok (blockAt_ok h hb)
    (Ends.modify ((Marked.refl h).sameBlocks (sameBlocks_setPointers hb fun s => s.erase pointer)))

theorem clearAt_marked (h : Marked m₀ m) (hb : m.block? a = some b) :
    Runs (clearAt a) m fun _ => Marked m₀ :=
  .bind_ok (blockAt_ok h.linked hb)
    (Ends.modify (h.sameBlocks (sameBlocks_setBlock m a fun _ => ⟨rfl, rfl, rfl⟩)))

theorem clearEach_marked : ∀ (as : List Nat) {m : Memory}, Marked m₀ m →
    (∀ a ∈ as, ∃ b, m₀.block? a = some b) → Runs (clearEach as) m fun _ => Marked m₀
  | [], _, h, _ => .pure h
  | a :: as, _, h, hb => by
      obtain ⟨b₀, hb₀⟩ := hb a (List.mem_cons_self ..)
      obtain ⟨b, hb', _⟩ := h.exists_block hb₀
      refine Runs.bind (clearAt_marked h hb') fun _ _ h' => ?_
      exact clearEach_marked as h' fun c hc => hb c (List.mem_cons_of_mem a hc)

theorem clearRefs_marked (h : Linked none m) : Runs clearRefs m fun _ => Marked m := by
  refine .bind_ok rfl (Runs.bind (clearEach_marked _ (.refl h) h.dirty) ?_)
  intro _ m' h'
  exact Ends.modify (h'.sameBlocks (sameBlocks_dirty m' fun _ ha => nomatch ha))

end Marks

/-! ## Names and variables -/

/-- The name has the address, where the variable is. -/
structure At (m : Memory) (name : String) (a : Nat) (id : VarId) : Prop where
  address : m.names.get? name = some a
  var : (m.block? a).map Block.var = some id

section At

variable {m m' : Memory} {n n' : String} {a a' : Nat} {id id' : VarId}

theorem Linked.exists_at (h : Linked none m) (ha : m.names.get? n = some a) :
    ∃ id, m.At n a id := by
  obtain ⟨b, hb, _⟩ := Option.map_eq_some_iff.mp (h.name n a ha)
  exact ⟨b.var, ha, by rw [hb, Option.map_some]⟩

theorem At.exists_block (h : m.At n a id) : ∃ b, m.block? a = some b ∧ b.var = id :=
  Option.map_eq_some_iff.mp h.var

theorem At.variableAt (h : m.At n a id) (hl : Linked none m) :
    variableAt (a : Int) m = .ok (some (id, m.varOf id)) m := by
  obtain ⟨b, hb, rfl⟩ := h.exists_block
  exact variableAt_ok hl hb

theorem At.name (h : m.At n a id) (hl : Linked none m) : (m.varOf id).name = n := by
  obtain ⟨b, hb, rfl⟩ := h.exists_block
  have hn := hl.name n a h.address
  rw [nameAt?, hb] at hn
  exact Option.some.inj hn

theorem At.lt_size (h : m.At n a id) (hl : Linked none m) : id < m.vars.size := by
  obtain ⟨b, hb, rfl⟩ := h.exists_block
  obtain ⟨hpos, hlt⟩ := hl.lt_next_of_block hb
  obtain ⟨b', hb', hplaced⟩ := hl.block a hpos hlt
  rw [hb] at hb'
  cases hb'
  exact hplaced.var

theorem At.unique (h : m.At n a id) (h' : m.At n a' id') : a = a' ∧ id = id' := by
  have ha : a = a' := Option.some.inj (h.address.symm.trans h'.address)
  subst ha
  exact ⟨rfl, Option.some.inj (h.var.symm.trans h'.var)⟩

theorem At.marked (h : m.At n a id) (hm : Marked m m') : m'.At n a id :=
  ⟨hm.names ▸ h.address, (hm.block a).trans h.var⟩

theorem At.of_marked (h : m'.At n a id) (hm : Marked m m') : m.At n a id :=
  ⟨hm.names ▸ h.address, (hm.block a).symm.trans h.var⟩

end At

/-! ## Variables that take one block -/

/-- The variable at `id` has got a block of its own under a name, and all else is as before. -/
structure Adds (m : Memory) (name : String) (id : VarId) (m' : Memory) : Prop where
  linked : Linked none m'
  names : m'.names = m.names.set name m.next
  size : m.vars.size ≤ m'.vars.size
  var : ∀ j, j < m.vars.size → j ≠ id → m'.varOf j = m.varOf j
  block : ∀ a, (m'.block? a).map Block.var =
    if a = m.next then some id else (m.block? a).map Block.var

section Adds

variable {m m' : Memory} {name : String} {id : VarId}

theorem adds_withBlock (h : Linked none m) (hid : id < m.vars.size)
    (hname : (m.varOf id).name = name) : Adds m name id (m.withBlock name 0 id) where
  linked := h.withBlock (fun _ ho => nomatch ho) hid hname h.pos
  names := rfl
  size := Nat.le_refl _
  var _ _ _ := rfl
  block a := by
    rw [block?_withBlock h]
    split
    · rfl
    · rfl

theorem Adds.setVar (h : Adds m name id m') {f : Variable → Variable}
    (hf : ∀ v, (f v).name = v.name) (hp : ∀ v, (f v).parts = v.parts) :
    Adds m name id (m'.setVar id f) where
  linked := h.linked.setVar_same hf hp
  names := h.names
  size := by simpa [Memory.setVar] using h.size
  var j hj hne := by
    rw [varOf_setVar, if_neg fun hc => hne hc.1.symm]
    exact h.var j hj hne
  block := h.block

theorem Adds.at_new (h : Adds m name id m') : m'.At name m.next id := by
  refine ⟨?_, ?_⟩
  · rw [h.names, Table.get?_set, if_pos rfl]
  · rw [h.block, if_pos rfl]

variable {n : String} {v : Variable} {T : TypeTable}

/-- Other names mean what they meant. -/
theorem Adds.at_iff (h : Adds m name id m') (hl : Linked none m) (hn : n ≠ name)
    {a : Nat} {j : VarId} : m'.At n a j ↔ m.At n a j := by
  have haddr : m'.names.get? n = m.names.get? n := by
    rw [h.names, Table.get?_set, if_neg hn.symm]
  have hblock : m.names.get? n = some a →
      (m'.block? a).map Block.var = (m.block? a).map Block.var := by
    intro ha
    rw [h.block, if_neg (Nat.ne_of_lt (hl.lt_next (hl.name n a ha)).2)]
  constructor
  · intro hat
    have ha := haddr.symm.trans hat.address
    exact ⟨ha, (hblock ha).symm.trans hat.var⟩
  · intro hat
    exact ⟨haddr.trans hat.address, (hblock hat.address).trans hat.var⟩

/-- A name that was there before means what it meant, and so does its variable. -/
theorem Adds.at_old (h : Adds m name id m') (hl : Linked none m)
    (habsent : m.names.get? name = none) (hnew : ∀ n a j, m.At n a j → j ≠ id)
    {a : Nat} {j : VarId} (hat : m.At n a j) : m'.At n a j ∧ m'.varOf j = m.varOf j := by
  have hn : n ≠ name := by
    rintro rfl
    rw [hat.address] at habsent
    cases habsent
  exact ⟨(h.at_iff hl hn).mpr hat, h.var j (hat.lt_size hl) (hnew n a j hat)⟩

/-- The block of a variable that has just been declared. -/
theorem Adds.of_declare
    (h : Adds { m with vars := m.vars.push v } name m.vars.size m') :
    Adds m name m.vars.size m' where
  linked := h.linked
  names := h.names
  size := by
    have hsize := h.size
    rw [Array.size_push] at hsize
    omega
  var j hj hne := by
    have hlt : j < ({ m with vars := m.vars.push v } : Memory).vars.size := by
      rw [Array.size_push]
      omega
    rw [h.var j hlt hne, varOf_push, if_neg hne]
  block := h.block

/-- A type without parts is laid out in one block. -/
theorem allocate_basic {type : String} (ht : T.isBasic (T.decode type) = true)
    (m : Memory) (name : String) (id : VarId) :
    allocate T name type 0 (some id) m = .ok m.next (m.withBlock name 0 id) := by
  have hparts : ∀ (layout : Layout) (a : Nat) (m : Memory),
      allocateParts T layout name (T.decode type) a id m = .ok ⟨⟩ m := by
    intro layout a m
    unfold allocateParts
    rw [if_pos ht]
    rfl
  refine (bind_of_ok rfl).trans ?_
  show allocateWithin T (_ + 1) name type 0 (some id) m = _
  unfold allocateWithin
  refine (bind_of_ok rfl).trans ((bind_of_ok rfl).trans ((bind_of_ok rfl).trans ?_))
  exact (bind_of_ok (hparts _ _ _)).trans rfl

theorem allocateRoot_basic (ht : T.isBasic (T.decode (m.varOf id).type) = true) :
    allocateRoot T id m =
      .ok m.next ((m.withBlock (m.varOf id).name 0 id).setVar id
      fun v => { v with address := m.next }) := by
  refine (bind_of_ok rfl).trans ?_
  refine (bind_of_ok (allocate_basic ht m _ id)).trans ?_
  exact (bind_of_ok rfl).trans rfl

/-- A declared variable that has no block yet gets one. -/
theorem allocateRoot_adds (h : Linked none m) (hid : id < m.vars.size)
    (ht : T.isBasic (T.decode (m.varOf id).type) = true) :
    ∃ m', allocateRoot T id m = .ok m.next m' ∧ Adds m (m.varOf id).name id m' ∧
      m'.varOf id = { m.varOf id with address := m.next } := by
  refine ⟨_, allocateRoot_basic ht, (adds_withBlock h hid rfl).setVar (fun _ => rfl)
    fun _ => rfl, ?_⟩
  rw [varOf_setVar]
  exact if_pos ⟨rfl, hid⟩

/-- A variable is declared and gets its block. -/
theorem declare_allocateRoot (h : Linked none m)
    (hv : v.parts = {}) (ht : T.isBasic (T.decode v.type) = true) :
    ∃ m', allocateRoot T m.vars.size { m with vars := m.vars.push v } = .ok m.next m' ∧
      Adds m v.name m.vars.size m' ∧
      m'.varOf m.vars.size = { v with address := m.next } := by
  have hvar : ({ m with vars := m.vars.push v } : Memory).varOf m.vars.size = v := by
    rw [varOf_push, if_pos rfl]
  have hid : m.vars.size < ({ m with vars := m.vars.push v } : Memory).vars.size := by simp
  obtain ⟨m', hrun, hadds, hvar'⟩ := allocateRoot_adds (h.declare hv) hid (by rwa [hvar])
  rw [hvar] at hadds hvar'
  exact ⟨m', hrun, hadds.of_declare, hvar'⟩

end Adds

/-! ## Paths without steps -/

theorem plainPart_eq : ∀ {cs : List Char}, (∀ c ∈ cs, c ≠ '.' ∧ c ≠ '[' ∧ c ≠ '-') →
    Path.plainPart cs = (cs, [])
  | [], _ => rfl
  | c :: cs, h => by
      obtain ⟨hdot, hbracket, hdash⟩ := h c (List.mem_cons_self ..)
      have ih := plainPart_eq fun c' hc' => h c' (List.mem_cons_of_mem c hc')
      unfold Path.plainPart
      rw [if_neg (by simp [hdot, hbracket, hdash]), ih]

theorem resolve_known (T : TypeTable) {name : String} {a : Nat} (hne : name ≠ "")
    (ha : m.names.get? name = some a) : resolve T name m = .ok (some a) m := by
  have hempty : ¬ name.isEmpty = true := by simpa using hne
  unfold resolve
  rw [if_neg hempty]
  refine (bind_of_ok rfl).trans ?_
  rw [address?, ha]
  rfl

/-- A name without points, brackets and dashes means itself only. -/
theorem resolve_unknown (T : TypeTable) {name : String} (hne : name ≠ "")
    (h : ∀ c ∈ name.toList, c ≠ '.' ∧ c ≠ '[' ∧ c ≠ '-') (ha : m.names.get? name = none) :
    resolve T name m = .ok none m := by
  have hempty : ¬ name.isEmpty = true := by simpa using hne
  have hparse : Path.parse name = (name, []) := by
    unfold Path.parse
    rw [plainPart_eq h]
    simp [Path.steps, Path.stepsWithin]
  unfold resolve
  rw [if_neg hempty]
  refine (bind_of_ok rfl).trans ?_
  rw [address?, ha, hparse]
  dsimp only
  rw [if_neg hempty]
  refine (bind_of_ok rfl).trans ?_
  rw [address?, ha]
  rfl

end Memory

end Footprint
