import Footprint.Proofs.Memory.Linked
import Footprint.Proofs.Outcome
import Footprint.Proofs.Types.Nesting

/-!
# Steps on the memory

`Safe` says of a step that it keeps a property of the memory.  It also says so of
a step that stops with a fault, unless the fault is that a layout never ends.
For that case `Safe` has a condition under which it is excluded.

What is done to the memory is put together from layouts, lookups and small
changes, and `Building` are the properties that these keep.
-/

namespace Footprint

/-- Something was asked for that is not there: an address, a position, a block or an owner. -/
def Fault.OutOfBounds : Fault → Prop
  | .badAddress _ _ | .outOfRange | .noBlock | .unowned => True
  | _ => False

namespace Memory

variable {α β : Type} {D : Prop} {J : Memory → Prop} {m₀ : Memory}

/-- From `m` the step ends in a memory with the property, or its layout never ends and `D` does not
hold. -/
def Lays (D : Prop) (J : Memory → Prop) (x : MemM α) (m : Memory) : Prop :=
  Ends x m (fun _ => J) fun e m' => (e = .endless → ¬ D) ∧ (e ≠ .endless → J m')

/-- The step keeps the property. -/
structure Safe (D : Prop) (J : Memory → Prop) (x : MemM α) : Prop where
  lays : ∀ m, J m → Lays D J x m

variable {m m' : Memory} {e : Fault} {x : MemM α} {f : α → MemM β} {a c : Nat} {b : Block}
variable {owed : Option String} {mark : Variable → Variable} {s text : String}

theorem Lays.pure (h : J m) (a : α) : Lays D J (pure a) m := Ends.pure h

theorem Lays.throw (h : J m) (he : e ≠ .endless) : Lays D J (throw e : MemM α) m :=
  Ends.throw ⟨fun h => absurd h he, fun _ => h⟩

theorem Lays.bind (hx : Lays D J x m) (hf : ∀ a, Safe D J (f a)) : Lays D J (x >>= f) m :=
  Ends.bind (Ends.mono hx (fun a m' h => (hf a).lays m' h) fun _ _ h => h)

theorem Lays.bind_ok {a : α} (hx : x m = .ok a m')
    (hf : Lays D J (f a) m') : Lays D J (x >>= f) m :=
  Ends.bind_ok hx hf

theorem Lays.bind_error (h : J m)
    (hx : x m = .error e m) (he : e ≠ .endless) : Lays D J (x >>= f) m :=
  Ends.bind (.of_error hx ⟨fun h => absurd h he, fun _ => h⟩)

/-- Whether the step gives a value or stops, the memory has the property. -/
theorem Lays.leads (h : Lays D J x m) (hx : Leads x m m') : J m' := by
  rcases hx with ⟨a, hx⟩ | ⟨e, hne, hx⟩
  · exact h.value a m' hx
  · exact (h.fault e m' hx).2 hne

namespace Safe

theorem pure (a : α) : Safe D J (pure a) := ⟨fun _ h => .pure h a⟩

theorem throw {e : Fault} (he : e ≠ .endless) : Safe D J (throw e : MemM α) :=
  ⟨fun _ h => .throw h he⟩

theorem get : Safe D J (get : MemM Memory) := ⟨fun _ h => Ends.get h⟩

theorem modify {f : Memory → Memory} (hf : ∀ m, J m → J (f m)) : Safe D J (modify f) :=
  ⟨fun m h => Ends.modify (hf m h)⟩

theorem orFault {x : Except Fault α} (hx : ∀ e, x = .error e → e ≠ .endless) :
    Safe D J (orFault x) := by
  cases x with
  | ok a => exact pure a
  | error e => exact throw (hx e rfl)

variable {x : MemM α}

theorem bind {f : α → MemM β} (hx : Safe D J x) (hf : ∀ a, Safe D J (f a)) : Safe D J (x >>= f) :=
  ⟨fun m h => (hx.lays m h).bind hf⟩

/-- A step without a layout that never ends. -/
theorem keeps (h : Safe True J x) : Keeps J x :=
  ⟨fun m hm => Ends.mono (h.lays m hm) (fun _ _ hm' => hm') fun _ _ he =>
    he.2 fun hend => he.1 hend trivial⟩

end Safe

/-! ## Looking at blocks -/

/-- Looking at a place changes nothing.  It may be no place of a block. -/
theorem blockAt_cases (a : Int) (m : Memory) :
    (∃ e, e ≠ .endless ∧ blockAt a m = .error e m) ∨ blockAt a m = .ok (m.block? a.toNat) m := by
  by_cases hout : (a ≤ 0 || (m.blocks.size : Int) ≤ a) = true
  · refine .inl ⟨.badAddress a (m.blocks.size - 1), by simp, bind_of_error ?_⟩
    refine (bind_of_ok rfl).trans ?_
    rw [if_pos hout]
    rfl
  · refine .inr (bind_of_ok ?_)
    refine (bind_of_ok rfl).trans ?_
    rw [if_neg hout]
    rfl

theorem blockAt_of_pos (hpos : 0 < a)
    (hb : m.block? a = some b) : blockAt (a : Int) m = .ok (some b) m := by
  have hlt := (Array.getElem?_eq_some_iff.mp (block?_eq_some hb)).1
  have hin : ¬ ((a : Int) ≤ 0 || (m.blocks.size : Int) ≤ a) = true := by simp; omega
  have hplace : place (a : Int) m = .ok a m := by
    refine (bind_of_ok rfl).trans ?_
    rw [if_neg hin]
    rfl
  rw [← hb]
  exact bind_of_ok hplace

theorem blockAt_ok (h : Linked owed m)
    (hb : m.block? a = some b) : blockAt (a : Int) m = .ok (some b) m :=
  blockAt_of_pos (h.lt_next_of_block hb).1 hb

/-- Looking at a variable changes nothing.  There may be no variable. -/
theorem variableAt_cases (a : Nat) (m : Memory) :
    (∃ e, e ≠ .endless ∧ variableAt (a : Int) m = .error e m) ∨
      variableAt (a : Int) m = .ok ((m.block? a).map fun b => (b.var, m.varOf b.var)) m := by
  cases blockAt_cases a m with
  | inl h =>
    obtain ⟨e, hne, he⟩ := h
    exact .inl ⟨e, hne, bind_of_error he⟩
  | inr h =>
    rw [Int.toNat_natCast] at h
    refine .inr ((bind_of_ok h).trans ?_)
    cases m.block? a with
    | none => rfl
    | some b => rfl

theorem variableAt_of_pos (hpos : 0 < a)
    (hb : m.block? a = some b) : variableAt (a : Int) m = .ok (some (b.var, m.varOf b.var)) m :=
  bind_of_ok (blockAt_of_pos hpos hb)

theorem variableAt_ok (h : Linked owed m)
    (hb : m.block? a = some b) : variableAt (a : Int) m = .ok (some (b.var, m.varOf b.var)) m :=
  variableAt_of_pos (h.lt_next_of_block hb).1 hb

/-- The variable at an address with a name. -/
theorem variableAt_named (h : Linked owed m) {name : String} (ha : m.nameAt? a = some name) :
    ∃ id v, variableAt (a : Int) m = .ok (some (id, v)) m ∧ id < m.vars.size ∧ v = m.varOf id ∧
      v.name = name := by
  obtain ⟨hpos, hlt⟩ := h.lt_next ha
  obtain ⟨b, hb, hplaced⟩ := h.block a hpos hlt
  refine ⟨b.var, m.varOf b.var, variableAt_ok h hb, hplaced.var, rfl, ?_⟩
  rw [nameAt?, hb] at ha
  exact Option.some.inj ha

theorem change_safe {id : VarId} {f : Variable → Variable} (h : ∀ m, J m → J (m.setVar id f)) :
    Safe D J (change id f) :=
  .modify h

/-! ## Pointers to blocks -/

theorem blockAt_safe (a : Int) : Safe D J (blockAt a) := by
  constructor
  intro m h
  cases blockAt_cases a m with
  | inl he =>
    obtain ⟨e, hne, he⟩ := he
    exact Ends.of_error he ⟨fun hend => absurd hend hne, fun _ => h⟩
  | inr hb => exact Ends.of_ok hb h

section Pointers

variable (hp : ∀ {m m' : Memory}, J m → SameBlocks m m' → J m')

include hp

/-- A change of the pointers to the block at an address, if there is a block. -/
theorem changeRefs_safe (a : Int) (f : NameSet → NameSet) {x : MemM Unit}
    (hx : x = do
      match ← blockAt a with
      | some _ => modify fun m =>
          (m.setBlock a.toNat fun b => { b with pointers := f b.pointers }).touch a.toNat
      | none => return ()) : Safe D J x := by
  constructor
  intro m h
  rw [hx]
  cases blockAt_cases a m with
  | inl he =>
    obtain ⟨e, hne, he⟩ := he
    exact .bind_error h he hne
  | inr hb =>
    refine .bind_ok hb ?_
    cases hm : m.block? a.toNat with
    | none => exact .pure h _
    | some b => exact Ends.modify (hp h (sameBlocks_setPointers hm f))

theorem addRef_safe (a : Int) (pointer : String) : Safe D J (addRef a pointer) :=
  changeRefs_safe hp a (fun s => s.insert pointer) rfl

theorem removeRef_safe (a : Int) (pointer : String) : Safe D J (removeRef a pointer) :=
  changeRefs_safe hp a (fun s => s.erase pointer) rfl

theorem clearEach_safe : ∀ as : List Nat, Safe D J (clearEach as)
  | [] => .pure _
  | a :: as => by
      refine .bind (.bind (blockAt_safe a) fun b => ?_) fun _ => clearEach_safe as
      cases b with
      | none => exact .pure _
      | some b =>
        exact .modify fun m h => hp h (sameBlocks_setBlock m a fun _ => ⟨rfl, rfl, rfl⟩)

theorem clearRefs_safe : Safe D J clearRefs :=
  .bind .get fun _ => .bind (clearEach_safe hp _) fun _ =>
    .modify fun m h => hp h (sameBlocks_dirty m fun _ ha => nomatch ha)

end Pointers

/-! ## Reads and writes -/

theorem heldAt_safe (a : Int) : Safe D J (heldAt a) := by
  refine .bind .get fun m => .bind (.orFault ?_) fun p => ?_
  · intro e he
    unfold position at he
    dsimp only at he
    generalize (if a < 0 then a + (m.blocks.size : Int) else a) = p at he
    split at he
    · cases he
      simp
    · cases he
  · split
    · exact .pure _
    · exact .throw (by simp)

theorem markAt_safe (h : ∀ m id, J m → J (m.setVar id mark)) (a : Int) : Safe D J (markAt mark a) :=
  .bind (heldAt_safe a) fun _ => change_safe fun m => h m _

theorem markPointers_safe (h : ∀ m id, J m → J (m.setVar id mark)) :
    ∀ pointers : List String, Safe D J (markPointers mark pointers)
  | [] => .pure _
  | p :: pointers => by
      refine .bind (.bind .get fun m => ?_) fun _ => markPointers_safe h pointers
      split
      · exact markAt_safe h _
      · exact .pure _

theorem read_safe {f : String} (h : ∀ m id, J m → J (m.setVar id (·.markRead f))) (a : Int) :
    Safe D J (read a f) := by
  refine .bind (heldAt_safe a) fun b => .bind .get fun m => ?_
  split
  · exact .pure _
  · exact .bind (markPointers_safe h _) fun _ => markAt_safe h a

theorem write_safe {f : String} (h : ∀ m id, J m → J (m.setVar id (·.markWrite f))) (a : Int) :
    Safe D J (write a f) :=
  .bind (heldAt_safe a) fun _ => .bind .get fun _ =>
    .bind (markPointers_safe h _) fun _ => markAt_safe h a

theorem markRead_name (f : String) (v : Variable) : (v.markRead f).name = v.name := by
  unfold Variable.markRead
  split <;> rfl

theorem markRead_parts (f : String) (v : Variable) : (v.markRead f).parts = v.parts := by
  unfold Variable.markRead
  split <;> rfl

theorem markWrite_name (f : String) (v : Variable) : (v.markWrite f).name = v.name := by
  unfold Variable.markWrite
  split <;> rfl

theorem markWrite_parts (f : String) (v : Variable) : (v.markWrite f).parts = v.parts := by
  unfold Variable.markWrite
  split <;> rfl

/-! ## Marks of parts -/

theorem keeps_liftMarks (h : ∀ {m} id {f : Variable → Variable}, J m → (∀ v, (f v).name = v.name) →
    (∀ v, (f v).parts = v.parts) → J (m.setVar id f)) (hm : J m) (a : Nat) : J (m.liftMarks a) := by
  unfold liftMarks
  split
  · exact hm
  · split
    · exact hm
    · exact h _ hm (fun _ => rfl) fun _ => rfl

/-- What holds when any one whole is given the marks of a part holds after a search. -/
theorem keeps_gather (h : ∀ {m}, J m → ∀ a, J (m.liftMarks a)) (parts : Array (Array Nat)) :
    ∀ (depth : Nat) {m : Memory}, J m → ∀ a, J (gather parts depth m a)
  | 0, _, hm, _ => hm
  | depth + 1, _, hm, _ =>
    List.foldlRecOn _ _ hm fun _ hm c _ => h (keeps_gather h parts depth hm c) c

theorem addPart_fault {parts : Array (Array Nat)} (h : m.addPart parts a = .error e) :
    e = .noBlock ∨ e = .outOfRange := by
  unfold addPart at h
  split at h
  · exact .inl (Except.error.inj h).symm
  · split at h
    · cases h
    · exact .inr (Except.error.inj h).symm

theorem foldlM_addPart_fault : ∀ {as : List Nat} {parts : Array (Array Nat)},
    as.foldlM m.addPart parts = .error e → e = .noBlock ∨ e = .outOfRange
  | [], _, h => by cases h
  | a :: as, parts, h => by
    rw [List.foldlM_cons] at h
    cases hpart : m.addPart parts a with
    | error e' =>
      rw [hpart] at h
      cases h
      exact addPart_fault hpart
    | ok parts' =>
      rw [hpart] at h
      exact foldlM_addPart_fault h

/-- What holds when any one whole is given the marks of a part holds after all of them are, also
when a place without a block keeps the parts from being grouped. -/
theorem collect_ends (h : ∀ {m}, J m → ∀ a, J (m.liftMarks a)) (hm : J m) :
    Ends collect m (fun _ => J) fun e m' => (e = .noBlock ∨ e = .outOfRange) ∧ J m' := by
  refine Ends.bind (Ends.get (Ends.bind (Ends.orFault (fun parts _ => ?_) fun e he => ?_)))
  · exact Ends.set (List.foldlRecOn _ _ hm fun _ hm a _ => keeps_gather h parts _ hm a)
  · exact ⟨foldlM_addPart_fault he, hm⟩

/-- The addresses of the parts of a block in ascending order, and at zero those of the roots. -/
def partsOf (m : Memory) (a : Nat) : List Nat :=
  (List.range' 1 (m.blocks.size - 1)).filter fun c => (m.block? c).any (·.parent = a)

theorem mem_partsOf :
    c ∈ m.partsOf a ↔ 0 < c ∧ ∃ b, m.block? c = some b ∧ b.parent = a := by
  have hlt {b : Block} (hb : m.block? c = some b) : c < m.blocks.size :=
    (Array.getElem?_eq_some_iff.mp (block?_eq_some hb)).1
  simp only [partsOf, List.mem_filter, List.mem_range'_1, Option.any_eq_true, decide_eq_true_eq]
  constructor
  · rintro ⟨⟨hpos, -⟩, b, hb, hparent⟩
    exact ⟨hpos, b, hb, hparent⟩
  · rintro ⟨hpos, b, hb, hparent⟩
    have := hlt hb
    exact ⟨by omega, b, hb, hparent⟩

/-- One block is added to the parts of its parent, and the parts of others stay. -/
theorem exists_addPart {parts : Array (Array Nat)} (hb : m.block? c = some b)
    (hlt : b.parent < parts.size) : ∃ parts', m.addPart parts c = .ok parts' ∧
      parts'.size = parts.size ∧ ∀ a, (parts'.getD a #[]).toList =
        (parts.getD a #[]).toList ++ if b.parent = a then [c] else [] := by
  refine ⟨parts.modify b.parent (·.push c), ?_, Array.size_modify, fun a => ?_⟩
  · unfold addPart
    rw [hb]
    exact if_pos hlt
  · rw [Array.getD_eq_getD_getElem?, Array.getD_eq_getD_getElem?, Array.getElem?_modify]
    split
    · next he =>
      subst he
      simp [Array.getElem?_eq_getElem hlt]
    · exact (List.append_nil _).symm

theorem exists_foldlM_addPart : ∀ (cs : List Nat) (parts : Array (Array Nat)),
    (∀ c ∈ cs, ∃ b, m.block? c = some b ∧ b.parent < parts.size) →
    ∃ parts', cs.foldlM m.addPart parts = .ok parts' ∧ ∀ a, (parts'.getD a #[]).toList =
      (parts.getD a #[]).toList ++ cs.filter fun c => (m.block? c).any (·.parent = a)
  | [], parts, _ => ⟨parts, rfl, fun _ => (List.append_nil _).symm⟩
  | c :: cs, parts, h => by
    obtain ⟨⟨b, hb, hlt⟩, hcs⟩ := List.forall_mem_cons.mp h
    obtain ⟨parts', hparts', hsize, hadded⟩ := exists_addPart hb hlt
    obtain ⟨parts'', hparts'', hrest⟩ := exists_foldlM_addPart cs parts' (hsize ▸ hcs)
    refine ⟨parts'', by rw [List.foldlM_cons, hparts']; exact hparts'', fun a => ?_⟩
    rw [hrest, hadded, List.append_assoc, List.filter_cons, hb]
    by_cases hparent : b.parent = a <;> simp [hparent]

/-- Where every place but the first holds a block with a parent in range, the blocks are grouped
by their parents. -/
theorem exists_groupParts (h : ∀ c, 0 < c → c < m.blocks.size →
    ∃ b, m.block? c = some b ∧ b.parent < m.blocks.size) :
    ∃ parts, m.groupParts = .ok parts ∧ ∀ a, (parts.getD a #[]).toList = m.partsOf a := by
  obtain ⟨parts, hparts, hgrouped⟩ :=
    exists_foldlM_addPart (List.range' 1 (m.blocks.size - 1)) (.replicate m.blocks.size #[])
      fun c hc => by
        rw [Array.size_replicate]
        have := List.mem_range'_1.mp hc
        exact h c (by omega) (by omega)
  refine ⟨parts, hparts, fun a => (hgrouped a).trans ?_⟩
  rw [Array.getD_eq_getD_getElem?, Array.getElem?_replicate]
  split <;> rfl

/-- The blocks of a linked memory are grouped by their parents. -/
theorem Linked.exists_groupParts (h : Linked none m) :
    ∃ parts, m.groupParts = .ok parts ∧ ∀ a, (parts.getD a #[]).toList = m.partsOf a := by
  refine Memory.exists_groupParts fun c hpos hlt => ?_
  obtain ⟨b, hb, hplaced⟩ := h.block c hpos (h.next ▸ hlt)
  exact ⟨b, hb, Nat.lt_trans hplaced.parent hlt⟩

theorem collect_eq {parts : Array (Array Nat)} (h : m.groupParts = .ok parts) : collect m =
    .ok ⟨⟩ ((parts.getD 0 #[]).toList.foldl (gather parts m.blocks.size) m) :=
  (bind_of_ok rfl).trans (bind_of_ok (orFault_of_ok h m))

/-! ## Faults of texts -/

theorem readInt_fault (h : Text.readInt s = .error e) : e ≠ .endless ∧ ¬ e.OutOfBounds := by
  unfold Text.readInt at h
  dsimp only at h
  split at h
  · cases h
    exact ⟨by simp, id⟩
  · split at h
    · cases h
      exact ⟨by simp, id⟩
    · cases h

theorem readDigits_fault (h : Text.readDigits s = .error e) : e ≠ .endless ∧ ¬ e.OutOfBounds := by
  unfold Text.readDigits at h
  split at h
  · cases h
  · next he =>
    cases h
    exact readInt_fault he

theorem arrayLength_fault
    (h : TypeName.arrayLength text = .error e) : e ≠ .endless ∧ ¬ e.OutOfBounds := by
  unfold TypeName.arrayLength at h
  split at h
  · exact readDigits_fault h
  · cases h

theorem element_fault {T : TypeTable} {t : String} (h : T.element t = .error e) :
    e ≠ .endless ∧ ¬ e.OutOfBounds := by
  unfold TypeTable.element at h
  dsimp only at h
  split at h
  · cases hn : TypeName.arrayLength (TypeName.arrayParts (T.decode t)).2 with
    | ok n => rw [hn] at h; cases h
    | error e' => rw [hn] at h; cases h; exact arrayLength_fault hn
  · cases h
    exact ⟨by simp, id⟩

theorem slotOf_fault (h : slotOf text = .error e) : e ≠ .endless ∧ ¬ e.OutOfBounds := by
  unfold slotOf at h
  split at h
  · cases h
  · split at h
    · cases hr : Text.readDigits text with
      | ok n => rw [hr] at h; cases h
      | error e' => rw [hr] at h; cases h; exact readDigits_fault hr
    · cases h

/-! ## What is put together -/

/-- A property of linked memories with the variables of `m₀`.  It is kept where neither names nor
parts change, and by layouts and lookups.  An element is laid out at a slot with `Ok`. -/
structure Building (T : TypeTable) (D : Prop) (Ok : Slot → Prop) (m₀ : Memory)
    (J : Memory → Prop) : Prop where
  linked : ∀ {m}, J m → Linked none m
  vars : ∀ {m}, J m → m₀.vars.size ≤ m.vars.size
  setVar : ∀ {m} id {f : Variable → Variable}, J m → (∀ v, (f v).name = v.name) →
    (∀ v, (f v).parts = v.parts) → J (m.setVar id f)
  pointers : ∀ {m m'}, J m → SameBlocks m m' → J m'
  declare : ∀ {m} {v : Variable}, J m → v.parts = {} → J { m with vars := m.vars.push v }
  root : ∀ {m id}, J m → id < m.vars.size →
    Lays D J (allocate T (m.varOf id).name (m.varOf id).type 0 (some id)) m
  element : ∀ {m a name s}, J m → m.nameAt? a = some name → Ok s →
    Ends (element T a name s) m (fun _ m' => J m' ∧ m'.nameAt? a = some name)
      fun e m' => (e = .endless → ¬ D) ∧ (e ≠ .endless → J m')
  resolve : ∀ name, Safe D J (resolve T name)

theorem asArray_name (T : TypeTable) (v : Variable) : (asArray T v).name = v.name := by
  unfold asArray
  split <;> rfl

theorem asArray_parts (T : TypeTable) (v : Variable) : (asArray T v).parts = v.parts := by
  unfold asArray
  split <;> rfl

namespace Building

variable {T : TypeTable} {Ok : Slot → Prop} (h : Building T D Ok m₀ J)

include h

theorem change (id : VarId) {f : Variable → Variable} (hname : ∀ v, (f v).name = v.name)
    (hparts : ∀ v, (f v).parts = v.parts) : Safe D J (change id f) :=
  change_safe fun _ hm => h.setVar id hm hname hparts

variable {id : VarId} {name : String} {length : Int}

theorem allocateRoot (hid : id < m₀.vars.size) : Safe D J (allocateRoot T id) :=
  ⟨fun _ hm => Lays.bind_ok rfl ((h.root hm (Nat.lt_of_lt_of_le hid (h.vars hm))).bind fun _ =>
    .bind (h.change id (fun _ => rfl) fun _ => rfl) fun _ => .pure _)⟩

theorem allocateGlobals : ∀ {ids : List VarId}, (∀ id ∈ ids, id < m₀.vars.size) →
    Safe D J (allocateGlobals T ids)
  | [], _ => .pure _
  | id :: _, hids => .bind (h.allocateRoot (hids id (List.mem_cons_self ..))) fun _ =>
      allocateGlobals fun j hj => hids j (List.mem_cons_of_mem id hj)

theorem allocatePointee (v : Variable) : Safe D J (allocatePointee T v) := by
  refine ⟨fun m hm => Lays.bind_ok rfl ?_⟩
  have hvar := varOf_push m (pointeeVariable T v) m.vars.size
  rw [if_pos rfl] at hvar
  have hnew : m.vars.size < (m.vars.push (pointeeVariable T v)).size := by simp
  have hlays := h.root (h.declare (v := pointeeVariable T v) hm rfl) hnew
  rw [hvar] at hlays
  exact hlays

theorem allocateParam (noted : Table String Nat) (hid : id < m₀.vars.size) :
    Safe D J (allocateParam T noted id) := by
  refine .bind (h.allocateRoot hid) fun _ => .bind .get fun m => ?_
  dsimp only
  split
  · exact .bind (h.allocatePointee _) fun _ => .bind (addRef_safe h.pointers _ _) fun _ => .pure _
  · exact .pure _

theorem allocateParams : ∀ {ids : List VarId} (noted : Table String Nat),
    (∀ id ∈ ids, id < m₀.vars.size) → Safe D J (allocateParams T noted ids)
  | [], _, _ => .pure _
  | id :: _, noted, hids =>
      .bind (h.allocateParam noted (hids id (List.mem_cons_self ..))) fun noted =>
        allocateParams noted fun j hj => hids j (List.mem_cons_of_mem id hj)

theorem allocateFunctionParams : ∀ {ids : List VarId} (noted : Table String Nat),
    (∀ id ∈ ids, id < m₀.vars.size) → Safe D J (allocateFunctionParams T noted ids)
  | [], _, _ => .pure _
  | id :: ids, noted, hids => by
      have hrest : ∀ j ∈ ids, j < m₀.vars.size := fun j hj => hids j (List.mem_cons_of_mem id hj)
      refine .bind .get fun m => ?_
      dsimp only
      split
      · exact allocateFunctionParams noted hrest
      · exact .bind (h.change id (asArray_name T) (asArray_parts T)) fun _ =>
          .bind (h.allocateParam noted (hids id (List.mem_cons_self ..))) fun noted =>
            allocateFunctionParams noted hrest

/-! ## Pointers that turn out to be arrays -/

theorem elementsFrom {a : Nat} : ∀ (left : Nat) {i : Nat} {m : Memory}, J m →
    m.nameAt? a = some name → (∀ k < i + left, Ok (.element k)) →
      Lays D J (elementsFrom T a name i left) m
  | 0, _, _, hm, _, _ => .pure hm _
  | left + 1, i, m, hm, ha, hok => by
    refine Ends.bind ((h.element hm ha (hok i (by omega))).mono ?_ fun _ _ he => he)
    rintro _ m' ⟨hm', ha'⟩
    exact elementsFrom left hm' ha' fun k hk => hok k (by omega)

/-- A named variable may become an array. -/
theorem becomeArray {m : Memory} (hm : J m) {a : Nat} (ha : m.address? name = some a) (id : VarId)
    (base : String) (hany : Ok .anyElement) (hok : ∀ k < length.toNat, Ok (.element k)) :
    Lays D J (becomeArray T a id name base length) m := by
  have hchange := h.setVar id (f := fun v => { v with
    type := TypeName.arrayOf base length, kind := .array, isPointer := false }) hm
    (fun _ => rfl) fun _ => rfl
  have hname := (h.linked hchange).name name a ha
  refine Ends.bind
    (Ends.modify (Ends.bind ((h.element hchange hname hany).mono ?_ fun _ _ he => he)))
  rintro _ m' ⟨hm', ha'⟩
  exact h.elementsFrom length.toNat hm' ha' fun k hk => hok k (by omega)

theorem foldl_hideUnder (name : String) : ∀ (bs : List (Option Block)) {m : Memory}, J m →
    J (bs.foldl (hideUnder name) m)
  | [], _, hm => hm
  | b :: bs, m, hm => by
    refine foldl_hideUnder name bs ?_
    unfold hideUnder
    split
    · exact hm
    · split
      · exact h.setVar _ hm (fun _ => rfl) fun _ => rfl
      · exact hm

theorem growArray (name base : String) (hany : Ok .anyElement)
    (hok : ∀ k < length.toNat, Ok (.element k)) : Safe D J (growArray T name base length) := by
  constructor
  intro m hm
  unfold Memory.growArray
  split
  · exact .pure hm _
  · refine Lays.bind_ok rfl ?_
    split
    · exact .pure hm _
    · next a ha =>
      have hl := h.linked hm
      obtain ⟨id, v, hv, _⟩ := variableAt_named hl (hl.name name a ha)
      refine Lays.bind_ok hv ?_
      dsimp only
      split
      · exact h.becomeArray hm ha id base hany hok
      · exact .pure hm _

theorem paramToArray (name base : String) (hany : Ok .anyElement)
    (hok : ∀ k < length.toNat, Ok (.element k)) : Safe D J (paramToArray T name base length) := by
  constructor
  intro m hm
  unfold Memory.paramToArray
  split
  · exact .pure hm _
  · refine Lays.bind_ok rfl ?_
    split
    · exact .pure hm _
    · next a ha =>
      have hl := h.linked hm
      obtain ⟨id, v, hv, _⟩ := variableAt_named hl (hl.name name a ha)
      refine Lays.bind_ok hv ((h.becomeArray hm ha id base hany hok).bind fun _ => ?_)
      refine .modify fun m hm => ?_
      rw [← Array.foldl_toList]
      exact h.foldl_hideUnder _ _ hm

theorem collect : Safe D J collect := by
  refine ⟨fun m hm => (collect_ends (keeps_liftMarks h.setVar) hm).mono (fun _ _ hm => hm) ?_⟩
  rintro e m' ⟨rfl | rfl, hm⟩
  · exact ⟨by simp, fun _ => hm⟩
  · exact ⟨by simp, fun _ => hm⟩

end Building

end Memory

end Footprint
