import Footprint.Proofs.Memory.Changes
import Footprint.Proofs.Memory.Users

/-!
# Pointers recorded at blocks

Every block has the names of the pointers that point to it.  `RefAt` says that a
name is recorded at an address.  A lookup, a declaration and a mark leave the
record as it is.  Only `addRef`, `removeRef` and `clearRefs` change it, each
where it says.
-/

namespace Footprint

namespace Memory

variable {T : TypeTable} {P : Slot → Prop} {D : Prop} {m m' : Memory} {a c : Nat} {p q : String}

/-- The pointer is recorded at the block. -/
def RefAt (m : Memory) (a : Nat) (p : String) : Prop := ∃ b, m.block? a = some b ∧ p ∈ b.pointers

theorem block?_eq_getElem? (m : Memory) (a : Nat) : m.block? a = m.blocks[a]?.join := rfl

theorem refAt_congr (h : m'.blocks = m.blocks) : m'.RefAt a p ↔ m.RefAt a p := by
  simp only [RefAt, block?_eq_getElem?, h]

theorem refAt_withBlock (name : String) (parent : Nat) (id : VarId) :
    (m.withBlock name parent id).RefAt a p ↔ m.RefAt a p := by
  constructor
  · rintro ⟨b, hb, hp⟩
    rw [block?_eq_getElem?, withBlock, Array.getElem?_push] at hb
    split at hb
    · cases hb
      cases hp
    · exact ⟨b, hb, hp⟩
  · rintro ⟨b, hb, hp⟩
    exact ⟨b, block?_withBlock_of_some hb .., hp⟩

theorem Change.refAt (h : Change T P D m m') : m'.RefAt a p ↔ m.RefAt a p := by
  cases h with
  | note => exact refAt_congr rfl
  | add => exact (refAt_withBlock ..).trans (refAt_congr rfl)

/-- The pointers of a block, and of the wholes that it is a part of, are recorded somewhere. -/
theorem exists_refAt (m : Memory) (a : Nat) : p ∈ m.refs a → ∃ c, m.RefAt c p := by
  induction a using Nat.strongRecOn with
  | ind a ih =>
    intro hp
    rw [refs] at hp
    split at hp
    · cases hp
    · split at hp
      · cases hp
      · next b hb =>
        split at hp
        · next hlt =>
          rcases NameSet.mem_union.mp hp with hp | hp
          · exact ⟨a, b, hb, hp⟩
          · exact ih b.parent hlt hp
        · exact ⟨a, b, hb, hp⟩

/-! ## Changes of the record -/

/-- The memory with the pointers of a block changed. -/
def withRefs (m : Memory) (a : Nat) (g : NameSet → NameSet) : Memory :=
  (m.setBlock a fun b => { b with pointers := g b.pointers }).touch a

theorem block?_setBlock (g : Block → Block) :
    (m.setBlock a g).block? c = if a = c then (m.block? c).map g else m.block? c := by
  rw [block?_eq_getElem?, setBlock, Array.getElem?_modify]
  split
  · rw [block?_eq_getElem?]
    cases m.blocks[c]? with
    | none => rfl
    | some b => rfl
  · rfl

theorem block?_withRefs (g : NameSet → NameSet) :
    (m.withRefs a g).block? c =
      if a = c then (m.block? c).map fun b => { b with pointers := g b.pointers }
      else m.block? c := by
  rw [← block?_setBlock]
  unfold withRefs touch
  split
  · rfl
  · rfl

variable {b : Block}

theorem addRef_eq (h : Linked none m) (hb : m.block? a = some b) (p : String) :
    addRef a p m = .ok () (m.withRefs a (·.insert p)) :=
  bind_of_ok (blockAt_ok h hb)

theorem removeRef_eq (h : Linked none m) (hb : m.block? a = some b) (p : String) :
    removeRef a p m = .ok () (m.withRefs a (·.erase p)) :=
  bind_of_ok (blockAt_ok h hb)

theorem refAt_insert (hb : m.block? a = some b) :
    (m.withRefs a (·.insert p)).RefAt c q ↔ c = a ∧ q = p ∨ m.RefAt c q := by
  unfold RefAt
  rw [block?_withRefs]
  by_cases hc : a = c
  · subst hc
    simp [hb]
  · simp [hc, Ne.symm hc]

theorem refAt_erase : (m.withRefs a (·.erase p)).RefAt c q ↔ m.RefAt c q ∧ ¬ (c = a ∧ q = p) := by
  unfold RefAt
  rw [block?_withRefs]
  by_cases hc : a = c
  · subst hc
    cases m.block? a with
    | none => simp
    | some b => simp
  · simp [hc, Ne.symm hc]

/-! ## Layouts -/

/-- What is passed for the variable is taken for a pointer: the variable is one, or it is used as an
array. -/
def ByReference (v : Variable) : Prop := (v.isPointer || v.usedAsArray) = true

/-- The change keeps variables that pointers are passed for. -/
def KeepsReference (f : Variable → Variable) : Prop := ∀ v, ByReference v → ByReference (f v)

theorem keepsReference_asArray (T : TypeTable) : KeepsReference (asArray T) := by
  intro v hv
  unfold asArray
  split
  · next hboth =>
    rw [Bool.and_eq_true] at hboth
    simp [ByReference, hboth.2]
  · exact hv

/-- The property is kept by what layouts are made of, whatever the names and the types are. -/
structure Laying (J : Memory → Prop) : Prop where
  setVar : ∀ {m} id {f}, KeepsReference f → J m → J (m.setVar id f)
  declare : ∀ {m} v, J m → J { m with vars := m.vars.push v }
  block : ∀ {m} name parent id, J m → J (m.withBlock name parent id)

section Laying

variable {J : Memory → Prop} (h : Laying J)

include h

theorem Laying.keeps_change (id : VarId) {f : Variable → Variable} (hf : KeepsReference f) :
    Keeps J (change id f) :=
  .modify fun _ hm => h.setVar id hf hm

theorem Laying.keeps_declare (v : Variable) : Keeps J (Memory.declare v) :=
  ⟨fun _ hm => Ends.of_ok rfl (h.declare v hm)⟩

theorem Laying.spreads : Spreads (fun _ => True) (fun _ => True) J fun _ => J where
  own _ := trivial
  element _ _ := trivial
  member _ := trivial
  part hm _ _ := h.setVar _ (fun _ hv => hv) hm
  block hm _ _ := h.block _ _ _ (h.declare _ hm)
  fault hm _ := hm

theorem Laying.allocate (name type : String) (parent : Nat) (given : Option VarId) :
    Keeps J (allocate T name type parent given) := by
  refine ⟨fun m hm => ?_⟩
  cases given with
  | none => exact h.spreads.allocate settled_of_keeps name type parent hm trivial
  | some id =>
    exact (h.spreads.allocate_given hm (h.block name parent id hm) trivial trivial
      settled_of_keeps).mono
      (fun _ _ hr => hr.1) fun _ _ hr => hr

theorem Laying.resolve (name : String) : Keeps J (resolve T name) :=
  ⟨fun _ hm => (h.spreads.resolve_ends settled_of_keeps name hm).mono (fun _ _ hr => hr.1)
    fun _ _ hr => hr⟩

theorem Laying.allocateRoot (id : VarId) : Keeps J (allocateRoot T id) :=
  .bind .get fun _ => .bind (h.allocate _ _ _ _) fun _ =>
    .bind (h.keeps_change _ fun _ hv => hv) fun _ => .pure _

theorem Laying.allocateGlobals : ∀ ids : List VarId, Keeps J (allocateGlobals T ids)
  | [] => .pure _
  | id :: ids => .bind (h.allocateRoot id) fun _ => Laying.allocateGlobals ids

theorem Laying.allocatePointee (v : Variable) : Keeps J (allocatePointee T v) :=
  .bind (h.keeps_declare _) fun _ => h.allocate _ _ _ _

/-- A parameter is laid out, and a pointer is recorded at what it is taken to point to. -/
theorem Laying.allocateParam (hadd : ∀ a p, Keeps J (addRef a p)) (noted : Table String Nat)
    (id : VarId) : Keeps J (allocateParam T noted id) := by
  refine .bind (h.allocateRoot id) fun _ => .bind .get fun _ => ?_
  dsimp only
  split
  · exact .bind (h.allocatePointee _) fun _ => .bind (hadd _ _) fun _ => .pure _
  · exact .pure _

theorem Laying.allocateFunctionParams (hadd : ∀ a p, Keeps J (addRef a p)) :
    ∀ (ids : List VarId) (noted : Table String Nat), Keeps J (allocateFunctionParams T noted ids)
  | [], _ => .pure _
  | id :: ids, noted => by
    refine .bind .get fun m => ?_
    dsimp only
    split
    · exact Laying.allocateFunctionParams hadd ids noted
    · exact .bind (h.keeps_change _ (keepsReference_asArray T)) fun _ =>
        .bind (h.allocateParam hadd noted id) fun _ => Laying.allocateFunctionParams hadd ids _

end Laying

/-! ## Where pointers are recorded -/

/-- The memory has the same record, and the same blocks count as changed. -/
structure SameRefs (m m' : Memory) : Prop where
  dirty : m'.dirty = m.dirty
  refAt : ∀ a p, m'.RefAt a p ↔ m.RefAt a p

theorem SameRefs.setVar {m₀ : Memory} (h : SameRefs m₀ m) (id : VarId)
    (f : Variable → Variable) : SameRefs m₀ (m.setVar id f) :=
  ⟨h.dirty, fun a p => (refAt_congr rfl).trans (h.refAt a p)⟩

theorem laying_sameRefs (m₀ : Memory) : Laying (SameRefs m₀) where
  setVar id f _ hm := hm.setVar id f
  declare _ hm := ⟨hm.dirty, fun a p => (refAt_congr rfl).trans (hm.refAt a p)⟩
  block _ _ _ hm := ⟨hm.dirty, fun a p => (refAt_withBlock ..).trans (hm.refAt a p)⟩

/-- Every block with pointers counts as changed. -/
def Tracked (m : Memory) : Prop := ∀ a p, m.RefAt a p → a ∈ m.dirty

theorem tracked_empty : Tracked {} := by
  rintro a p ⟨b, hb, _⟩
  cases a with
  | zero => cases hb
  | succ a => cases hb

theorem Tracked.sameRefs (h : m.Tracked) (hs : SameRefs m m') : m'.Tracked :=
  fun a p ha => hs.dirty ▸ h a p ((hs.refAt a p).mp ha)

theorem Tracked.setVar (h : m.Tracked) (id : VarId) (f : Variable → Variable) :
    (m.setVar id f).Tracked :=
  h.sameRefs (SameRefs.setVar ⟨rfl, fun _ _ => .rfl⟩ id f)

theorem laying_tracked : Laying Tracked where
  setVar id f _ hm := hm.setVar id f
  declare v hm := hm.sameRefs ((laying_sameRefs _).declare v ⟨rfl, fun _ _ => .rfl⟩)
  block n p id hm := hm.sameRefs ((laying_sameRefs _).block n p id ⟨rfl, fun _ _ => .rfl⟩)

theorem mem_dirty_withRefs {g : NameSet → NameSet} :
    c ∈ (m.withRefs a g).dirty ↔ c = a ∨ c ∈ m.dirty := by
  unfold withRefs touch
  split
  · next ha =>
    have ha : a ∈ m.dirty := List.contains_iff_mem.mp ha
    exact ⟨.inr, fun hc => hc.elim (· ▸ ha) id⟩
  · exact List.mem_cons

theorem Tracked.withRefs (h : m.Tracked) (a : Nat) (g : NameSet → NameSet) :
    (m.withRefs a g).Tracked := by
  rintro c p ⟨b, hb, hp⟩
  rw [block?_withRefs] at hb
  rw [mem_dirty_withRefs]
  split at hb
  · next hac => exact .inl hac.symm
  · exact .inr (h c p ⟨b, hb, hp⟩)

theorem tracked_changeRefs (a : Int) (g : NameSet → NameSet) {x : MemM Unit}
    (hx : x = do
      match ← blockAt a with
      | some _ => modify fun m => m.withRefs a.toNat g
      | none => return ()) : Keeps Tracked x := by
  rw [hx]
  refine .bind (keeps_blockAt a) fun b => ?_
  cases b with
  | none => exact .pure _
  | some b => exact .modify fun m hm => hm.withRefs _ g

theorem tracked_addRef (a : Int) (p : String) : Keeps Tracked (addRef a p) :=
  tracked_changeRefs a (fun s => s.insert p) rfl

theorem tracked_removeRef (a : Int) (p : String) : Keeps Tracked (removeRef a p) :=
  tracked_changeRefs a (fun s => s.erase p) rfl

end Memory

end Footprint
