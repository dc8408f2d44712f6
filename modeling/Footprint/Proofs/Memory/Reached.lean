import Footprint.Proofs.Memory.Changes

/-!
# The memories that can be reached

`Call` lists what can be asked of the memory, and `Reached` the memories that
calls lead to from the empty one.  A call may end in a fault, and what it
changed before that stays.  Every memory that is reached is sound: addresses,
names and parts fit together.

One fault is left out, a layout that never ends.  Where no type contains itself
it does not come.
-/

namespace Footprint.Memory

/-- What can be asked of the memory. -/
inductive Call where
  /-- A variable is made, which has no block yet. -/
  | declare (v : Variable)
  /-- Something is noted at a variable. -/
  | note (id : VarId) (f : Variable → Variable)
  | allocateGlobals (ids : List VarId)
  | allocateLocal (id : VarId)
  | allocateParams (ids : List VarId)
  | allocateFunctionParams (ids : List VarId)
  | resolve (name : String)
  | growArray (name base : String) (length : Int)
  | paramToArray (name base : String) (length : Int)
  | addRef (a : Int) (pointer : String)
  | removeRef (a : Int) (pointer : String)
  | clearRefs
  | read (a : Int) (f : String)
  | write (a : Int) (f : String)
  | collect

/-- What a call does. -/
def Call.run (T : TypeTable) : Call → MemM Unit
  | .declare v => do let _ ← Memory.declare v
  | .note id f => change id f
  | .allocateGlobals ids => Memory.allocateGlobals T ids
  | .allocateLocal id => do let _ ← allocateRoot T id
  | .allocateParams ids => do let _ ← Memory.allocateParams T {} ids
  | .allocateFunctionParams ids => do let _ ← Memory.allocateFunctionParams T {} ids
  | .resolve name => do let _ ← Memory.resolve T name
  | .growArray name base length => Memory.growArray T name base length
  | .paramToArray name base length => Memory.paramToArray T name base length
  | .addRef a pointer => Memory.addRef a pointer
  | .removeRef a pointer => Memory.removeRef a pointer
  | .clearRefs => Memory.clearRefs
  | .read a f => Memory.read a f
  | .write a f => Memory.write a f
  | .collect => Memory.collect

/-- The call is about variables that there are.  A variable is made without parts, and neither its
name nor its parts are changed from outside. -/
def Call.Fits (m : Memory) : Call → Prop
  | .declare v => v.parts = {}
  | .note _ f => ∀ v, (f v).name = v.name ∧ (f v).parts = v.parts
  | .allocateLocal id => id < m.vars.size
  | .allocateGlobals ids | .allocateParams ids | .allocateFunctionParams ids =>
    ∀ id ∈ ids, id < m.vars.size
  | _ => True

/-- The memories that calls lead to, whether they end in a value or in a fault. -/
inductive Reached (T : TypeTable) : Memory → Prop where
  | empty : Reached T {}
  | value {m m' : Memory} {call : Call} : Reached T m → call.Fits m →
      call.run T m = .ok ⟨⟩ m' → Reached T m'
  | fault {m m' : Memory} {call : Call} {e : Fault} : Reached T m → call.Fits m →
      call.run T m = .error e m' → e ≠ .endless → Reached T m'

/-- Addresses, names and parts fit together. -/
structure Sound (m : Memory) : Prop where
  /-- Addresses are given one after the other. -/
  next : m.next = m.blocks.size
  /-- A block has its place as its address, and no parent or an earlier one. -/
  block : ∀ i, 1 ≤ i → i < m.blocks.size → ∃ b, m.block? i = some b ∧ b.address = i ∧
    (b.parent = 0 ∨ b.parent < i ∧ ∃ p, m.block? b.parent = some p)
  /-- The address of a name is that of a block with the name. -/
  name : ∀ n a, m.names.get? n = some a → ∃ b, m.block? a = some b ∧ (m.varOf b.var).name = n
  /-- The address of a part is that of a block with the name of the part. -/
  part : ∀ id s a, (m.varOf id).parts.get? s = some a →
    ∃ b, m.block? a = some b ∧ (m.varOf b.var).name = (m.varOf id).name ++ s.suffix

variable {m : Memory} {T : TypeTable}

theorem Linked.sound (h : Linked none m) : Sound m where
  next := h.next
  block i hi hlt := by
    obtain ⟨b, hb, hplaced⟩ := h.block i hi (h.next ▸ hlt)
    refine ⟨b, hb, hplaced.address, ?_⟩
    by_cases hp : b.parent = 0
    · exact .inl hp
    · obtain ⟨p, hp, _⟩ := h.block b.parent (Nat.pos_of_ne_zero hp)
        (Nat.lt_trans hplaced.parent (h.next ▸ hlt))
      exact .inr ⟨hplaced.parent, p, hp⟩
  name n a ha := Option.map_eq_some_iff.mp (h.name n a ha)
  part id s a ha := by
    cases h.part id s a ha with
    | inl hn => exact Option.map_eq_some_iff.mp hn
    | inr ho => cases ho.1

/-- The elements that a call lays out have slots with the property. -/
def Call.Elements (Ok : Slot → Prop) : Call → Prop
  | .growArray _ _ length | .paramToArray _ _ length =>
    Ok .anyElement ∧ ∀ k < length.toNat, Ok (.element k)
  | _ => True

/-- A call keeps what is kept by all that calls are put together from. -/
theorem Building.call {D : Prop} {Ok : Slot → Prop} {m₀ : Memory}
    {J : Memory → Prop} (h : Building T D Ok m₀ J) (call : Call) (hf : call.Fits m₀)
    (hs : call.Elements Ok) : Safe D J (call.run T) := by
  cases call with
  | declare v => exact ⟨fun m hm => Lays.bind_ok rfl (.pure (h.declare hm hf) _)⟩
  | note id f => exact h.change id (fun v => (hf v).1) fun v => (hf v).2
  | allocateGlobals ids => exact h.allocateGlobals hf
  | allocateLocal id => exact (h.allocateRoot hf).bind fun _ => .pure _
  | allocateParams ids => exact (h.allocateParams {} hf).bind fun _ => .pure _
  | allocateFunctionParams ids => exact (h.allocateFunctionParams {} hf).bind fun _ => .pure _
  | resolve name => exact (h.resolve name).bind fun _ => .pure _
  | growArray name base length => exact h.growArray name base hs.1 hs.2
  | paramToArray name base length => exact h.paramToArray name base hs.1 hs.2
  | addRef a pointer => exact addRef_safe h.pointers a pointer
  | removeRef a pointer => exact removeRef_safe h.pointers a pointer
  | clearRefs => exact clearRefs_safe h.pointers
  | read a f =>
    exact read_safe (fun _ id hm => h.setVar id hm (markRead_name f) (markRead_parts f)) a
  | write a f =>
    exact write_safe (fun _ id hm => h.setVar id hm (markWrite_name f) (markWrite_parts f)) a
  | collect => exact h.collect

theorem Call.elements (call : Call) : call.Elements Slot.IsElement := by
  cases call with
  | growArray | paramToArray => exact ⟨trivial, fun _ _ => trivial⟩
  | _ => trivial

theorem Call.run_lays (T : TypeTable) (h : Linked none m) (call : Call)
    (hf : call.Fits m) : Lays T.WellNested (After m) (call.run T) m :=
  ((building_after T m).call call hf call.elements).lays m (.refl h)

theorem Reached.linked (h : Reached T m) : Linked none m := by
  induction h with
  | empty => exact linked_empty
  | value _ hf hrun ih => exact ((Call.run_lays T ih _ hf).value _ _ hrun).linked
  | fault _ hf hrun hne ih => exact (((Call.run_lays T ih _ hf).fault _ _ hrun).2 hne).linked

/-- Every memory that is reached is sound, and where no type contains itself every call on it
comes to an end. -/
theorem reached_sound {T : TypeTable} {m : Memory} (h : Reached T m) :
    Sound m ∧ (T.WellNested → ∀ call : Call, call.Fits m → ∀ m',
      call.run T m ≠ .error .endless m') := by
  refine ⟨h.linked.sound, fun hT call hf m' hrun => ?_⟩
  exact ((Call.run_lays T h.linked call hf).fault _ m' hrun).1 rfl hT

/-- The memory after a call. -/
def Call.after (T : TypeTable) (call : Call) (m : Memory) : Memory :=
  match call.run T m with
  | .ok _ m' => m'
  | .error _ m' => m'

theorem Call.after_of_run {call : Call} {m' : Memory} {u : Unit}
    (h : call.run T m = .ok u m') : call.after T m = m' := by
  rw [Call.after, h]

/-- The call does not end in an endless layout. -/
def Call.comesToEnd (T : TypeTable) (call : Call) (m : Memory) : Bool :=
  match call.run T m with
  | .error .endless _ => false
  | _ => true

theorem Reached.after (h : Reached T m) (call : Call)
    (hf : call.Fits m) (he : call.comesToEnd T m = true) : Reached T (call.after T m) := by
  unfold Call.after
  unfold Call.comesToEnd at he
  cases hrun : call.run T m with
  | ok u m' => exact .value h hf hrun
  | error e m' =>
    refine .fault h hf hrun ?_
    rintro rfl
    rw [hrun] at he
    cases he

/-- A struct with an array in it. -/
def positions : TypeTable where
  structs := ⟨[("struct position",
    { name := "struct position", memberTypes := ["int[2]", "int"], memberNames := ["at", "tag"] })]⟩

theorem wellNested_positions : positions.WellNested :=
  TypeTable.wellNested_of_shorter rfl (by decide +kernel)

/-- The calls that declare a struct and a variable of a type that nobody knows, and lay them out;
in between an element of the struct is asked for. -/
def positionCalls : List Call :=
  [.declare { name := "p", type := "struct position", kind := .record },
   .declare { name := "q", type := "wrong", kind := .builtin },
   .allocateGlobals [0], .resolve "p.at[1]", .allocateLocal 1]

/-- The memory after the first `k` calls. -/
def positionMemory (k : Nat) : Memory :=
  (positionCalls.take k).foldl (fun m (call : Call) => call.after positions m) {}

theorem positionMemory_succ {k : Nat} {call : Call} (hk : positionCalls[k]? = some call) :
    positionMemory (k + 1) = call.after positions (positionMemory k) := by
  rw [positionMemory, List.take_add_one, hk, List.foldl_append]
  rfl

theorem Reached.positionMemory_succ {k : Nat} {call : Call}
    (h : Reached positions (positionMemory k)) (hk : positionCalls[k]? = some call)
    (hf : call.Fits (positionMemory k))
    (he : call.comesToEnd positions (positionMemory k) = true) :
    Reached positions (positionMemory (k + 1)) := by
  rw [Memory.positionMemory_succ hk]
  exact h.after call hf he

theorem reached_positionMemory :
    Reached positions (positionMemory 5) ∧ (positionMemory 5).names.get? "p.at[1]" = some 5 ∧
      Sound (positionMemory 5) ∧ positions.WellNested ∧
      ∀ m', (Call.resolve "p.at[0]").run positions (positionMemory 5) ≠ .error .endless m' := by
  have h₀ : Reached positions (positionMemory 0) := .empty
  have h₁ := h₀.positionMemory_succ rfl (show _ = _ from rfl) (by decide +kernel)
  have h₂ := h₁.positionMemory_succ rfl (show _ = _ from rfl) (by decide +kernel)
  have h₃ := h₂.positionMemory_succ rfl
    (show ∀ id ∈ [0], id < (positionMemory 2).vars.size by decide +kernel) (by decide +kernel)
  have h₄ := h₃.positionMemory_succ rfl trivial (by decide +kernel)
  have h₅ := h₄.positionMemory_succ rfl
    (show 1 < (positionMemory 4).vars.size by decide +kernel) (by decide +kernel)
  obtain ⟨hsound, hend⟩ := reached_sound h₅
  have hname : (positionMemory 5).names.get? "p.at[1]" = some 5 := by decide +kernel
  exact ⟨h₅, hname, hsound, wellNested_positions, hend wellNested_positions _ trivial⟩

end Footprint.Memory
