import Footprint.Proofs.Guard.Growing

/-!
# No address goes astray in a body

While a body is walked, addresses pass between the memory, the targets of
pointers, and what is known of the functions that are called.  Wherever one is
held (`Held`) it is that of a block (`Aimed`).

A body is walked by a few kinds of steps, and `Step` lists them.  A step that is
given an address is given that of a block.  Each keeps `Aimed`, and none asks
for a block that is not there.  The walk over any tree is a row of such steps,
also where it stops with a fault: this is what the lemmas of `MindsIn` say, and
`minding` is the guard that they come from.
-/

namespace Footprint

open Memory Analysis

/-- An address that is held: in the memory, in a table of pointers, or in what functions leave. -/
inductive Held (m : Memory) (pointers : Table String (Option Int)) (functions : Array Function) :
    Int → Prop
  /-- The address of a name. -/
  | name {n : String} {a : Nat} (h : m.address? n = some a) : Held m pointers functions a
  /-- The address of a part. -/
  | part {id : VarId} {s : Slot} {a : Nat} (h : (m.varOf id).parts.get? s = some a) :
      Held m pointers functions a
  /-- A block whose pointers changed. -/
  | dirty {a : Nat} (h : a ∈ m.dirty) : Held m pointers functions a
  /-- What a pointer variable remembers. -/
  | target {id : VarId} {a : Int} (h : (m.varOf id).target = some a) : Held m pointers functions a
  /-- The target of a pointer. -/
  | pointer {key : String} {a : Int} (h : (key, some a) ∈ pointers.entries) :
      Held m pointers functions a
  /-- A pointer that a function leaves somewhere. -/
  | left {f : Function} {a : Nat} {target : Option Int} (hf : f ∈ functions)
      (h : (a, target) ∈ f.pointerEnds.entries) : Held m pointers functions a
  /-- Where a function leaves a pointer. -/
  | leftAt {f : Function} {p : Nat} {a : Int} (hf : f ∈ functions)
      (h : (p, some a) ∈ f.pointerEnds.entries) : Held m pointers functions a

namespace Memory

/-- The variable is declared, and its name says that it belongs to the function. -/
structure Belongs (m : Memory) (function : String) (id : VarId) : Prop where
  lt : id < m.vars.size
  name : ∃ rest, (m.varOf id).name = ownerStart function ++ rest

variable {m m' : Memory} {f : Function}

theorem Belongs.grows {function : String} {id : VarId} (h : m.Belongs function id)
    (hg : Grows m m') : m'.Belongs function id :=
  ⟨Nat.lt_of_lt_of_le h.lt hg.vars, by rw [hg.var id h.lt]; exact h.name⟩

/-- What the record of a function refers to is there: the pointers and the targets that it leaves,
and its parameters. -/
structure Serves (m : Memory) (f : Function) : Prop where
  ends : ∀ e ∈ f.pointerEnds.entries, m.Owns (e.1 : Nat) ∧ m.OwnsTarget e.2
  params : ∀ id ∈ f.vars.values, m.Belongs f.name.plain id

theorem Serves.congr {g : Function} (h : m.Serves f) (he : g.pointerEnds = f.pointerEnds)
    (hv : g.vars = f.vars) (hn : g.name = f.name) : m.Serves g :=
  ⟨he ▸ h.ends, hv ▸ hn ▸ h.params⟩

theorem Serves.grows (h : m.Serves f) (hg : Grows m m') : m'.Serves f :=
  ⟨fun e he => ⟨(h.ends e he).1.grows hg, (h.ends e he).2.grows hg⟩,
    fun id hid => (h.params id hid).grows hg⟩

end Memory

namespace Walk

open Memory (Grows OwnsTarget ownsTarget_none)

/-- Every address that is held while a body is walked is that of a block. -/
structure Aimed (w : Walk) : Prop where
  memory : w.memory.Aimed
  pointers : w.memory.OwnsTargets w.pointers
  functions : ∀ f ∈ w.functions, w.memory.Serves f

variable {w : Walk}

/-- What is held is the address of a block. -/
theorem Aimed.owns (hw : w.Aimed) {a : Int}
    (ha : Held w.memory w.pointers w.functions a) : w.memory.Owns a := by
  have hl := hw.memory.linked
  cases ha with
  | name h => exact hl.owns_named (Option.isSome_of_eq_some (hl.name _ _ h))
  | part h =>
    rcases hl.part _ _ _ h with h | ⟨howed, _⟩
    · exact hl.owns_named (Option.isSome_of_eq_some h)
    · cases howed
  | dirty h =>
    obtain ⟨b, hb⟩ := hl.dirty _ h
    exact hl.owns hb
  | target h => exact hw.memory.target _ _ h
  | pointer h => exact hw.pointers _ h _ rfl
  | left hf h => exact ((hw.functions _ hf).ends _ h).1
  | leftAt hf h => exact ((hw.functions _ hf).ends _ h).2 _ rfl

/-! ## Steps -/

/-- A step that keeps what is held to blocks. -/
abbrev Aims {α : Type} (m₀ : Memory) (V : α → Memory → Prop) (x : WalkM α) : Prop :=
  Minds Aimed memory m₀ V x

section Aims

variable {m₀ : Memory} {s : Scope}

theorem aims_onMemory {α : Type} {V : α → Memory → Prop} {x : MemM α}
    (hx : MindsIn m₀ V x) : Aims m₀ V (onMemory x) :=
  hx.zoom (fun _ => rfl) (fun _ hw => hw.memory)
    (fun _ _ hw hm hg => ⟨hm, hw.pointers.grows hg, fun f hf => (hw.functions f hf).grows hg⟩)
    fun _ _ => rfl

theorem aims_pure {α : Type} (a : α) : Aims m₀ (fun _ _ => True) (pure a) :=
  .pure fun _ _ => trivial

theorem aims_addressOf (name : String) :
    Aims m₀ (fun found m => ∀ c : Nat, found = some c → m.Owns c) (addressOf s name) :=
  aims_onMemory (minds_resolve s.types name)

theorem aims_variableAt {a : Int} (h : m₀.Owns a) :
    Aims m₀ (fun found m => ∀ id v, found = some (id, v) → m.OwnsTarget v.target)
      (variableAt a) :=
  (aims_onMemory (minds_variableAt h)).mono fun _ _ _ hv id v hf => (hv id v hf).2.2

theorem aims_changeRoot {g : Function → Function}
    (hg : ∀ f m, Grows m₀ m → m.Serves f → m.Serves (g f)) :
    Aims m₀ (fun _ _ => True) (changeRoot s g) := by
  refine .modify (fun w hw hgrows => ⟨hw.memory, hw.pointers, ?_⟩) fun _ => rfl
  exact forall_mem_modify hw.functions fun f => hg f _ hgrows

theorem aims_noteName (use : Use) (name : String) :
    Aims m₀ (fun _ _ => True) (noteName s use name) := by
  cases use with
  | read => exact aims_changeRoot fun _ _ _ hf => hf.congr rfl rfl rfl
  | write => exact aims_changeRoot fun _ _ _ hf => hf.congr rfl rfl rfl

theorem aims_handles : Handles s Aimed Owns fun _ _ => True where
  later_address h hg := h.grows hg
  later_name h _ := h
  variableAt h := (aims_onMemory (minds_variableAt h)).mono fun _ _ _ hv id v hf =>
    ⟨(hv id v hf).2.1, trivial, (hv id v hf).2.2⟩
  read h := aims_onMemory (minds_read h s.name)
  write h := aims_onMemory (minds_write h s.name)
  change _ _ hg := aims_onMemory (minds_of_marked fun _ hm _ =>
    Ends.modify ((Marked.refl hm.linked).setVar _ hg))
  noteName use _ := aims_noteName use _
  setEnd hp ht := aims_changeRoot fun f m hg hf => by
    refine ⟨fun e he => ?_, hf.params⟩
    rcases Table.mem_entries_set he with rfl | he
    · exact ⟨hp.grows hg, fun t h => (ht t h).grows hg⟩
    · exact hf.ends e he
  written _ hw := ⟨hw.memory, hw.pointers, hw.functions⟩

theorem aims_share (name : String) : Aims m₀ (fun _ _ => True) (share s name) :=
  does_share (fun _ => aims_changeRoot fun _ _ _ hf => hf.congr rfl rfl rfl) name

variable {target : Option Int}

theorem aims_setTarget (key : String) (h : m₀.OwnsTarget target) :
    Aims m₀ (fun _ _ => True) (setTarget key target) :=
  .modify (fun _ hw hg => ⟨hw.memory, hw.pointers.set (h.grows hg) key, hw.functions⟩) fun _ => rfl

theorem aims_dropRef (key : String) (h : m₀.OwnsTarget target) :
    Aims m₀ (fun _ _ => True) (dropRef key target) := by
  cases target with
  | none => exact aims_pure _
  | some a => exact aims_onMemory (minds_removeRef (h a rfl) key)

theorem aims_noteRef (key : String) (h : m₀.OwnsTarget target) :
    Aims m₀ (fun _ _ => True) (noteRef key target) := by
  cases target with
  | none => exact aims_pure _
  | some a => exact aims_onMemory (minds_addRef (h a rfl) key)

theorem aims_remember (h : m₀.OwnsTarget target)
    (known : Option (VarId × Variable)) : Aims m₀ (fun _ _ => True) (remember target known) :=
  does_remember (fun id => aims_onMemory (minds_remember id h)) known

theorem aims_typeOf (i : NodeInfo) : Aims m₀ (fun _ _ => True) (typeOf i) := by
  unfold typeOf
  split
  · exact aims_pure _
  · exact .throw id

theorem aims_declareLocal (i : NodeInfo) : Aims m₀ (fun _ _ => True) (declareLocal s i) := by
  refine .bind (aims_addressOf _) fun a _ _ _ => ?_
  cases a with
  | some a => exact aims_pure _
  | none =>
    refine .bind (aims_typeOf i) fun t _ _ _ =>
      .bind (aims_onMemory (minds_declare rfl rfl)) fun id _ _ hid => ?_
    exact .bind (aims_onMemory (minds_allocateRoot s.types hid.1)) fun _ _ _ _ =>
      aims_pure _

theorem aims_forgetEnds :
    Aims m₀ (fun _ _ => True) (changeRoot s fun f => { f with pointerEnds := {} }) :=
  aims_changeRoot fun _ _ _ hf => ⟨(fun _ he => nomatch he), hf.params⟩

end Aims

/-- One step in a body.  What it is given as an address is the address of a block. -/
inductive Step (s : Scope) (w w' : Walk) : Prop
  /-- A name or a path is looked up, and elements are laid out on the way. -/
  | addressOf {name : String} (h : Leads (addressOf s name) w w')
  /-- The variable at an address is looked at. -/
  | variableAt {a : Int} (ha : w.memory.Owns a) (h : Leads (variableAt a) w w')
  /-- A use of a variable is noted, at its block and at the pointers to it. -/
  | mark {use : Use} {a : Int} (ha : w.memory.Owns a) (h : Leads (mark s use a) w w')
  /-- A use of a variable alone is noted. -/
  | markItself {use : Use} {a : Int} (ha : w.memory.Owns a) (h : Leads (markItself s use a) w w')
  /-- A name is shared with a callee. -/
  | share {name : String} (h : Leads (share s name) w w')
  /-- A pointer is given a target. -/
  | setTarget {key : String} {target : Option Int} (ht : w.memory.OwnsTarget target)
      (h : Leads (setTarget key target) w w')
  /-- A pointer is taken from the block it pointed to. -/
  | dropRef {key : String} {target : Option Int} (ht : w.memory.OwnsTarget target)
      (h : Leads (dropRef key target) w w')
  /-- A pointer is noted at the block it points to. -/
  | noteRef {key : String} {target : Option Int} (ht : w.memory.OwnsTarget target)
      (h : Leads (noteRef key target) w w')
  /-- The variable of a pointer is made to remember its target. -/
  | remember {target : Option Int} {known : Option (VarId × Variable)}
      (ht : w.memory.OwnsTarget target) (h : Leads (remember target known) w w')
  /-- A local is declared and laid out. -/
  | declareLocal {i : NodeInfo} (h : Leads (declareLocal s i) w w')
  /-- What the function left before is forgotten. -/
  | forgetEnds (h : Leads (changeRoot s fun f => { f with pointerEnds := {} }) w w')
  /-- Where a pointer points at the end of the function is noted. -/
  | noteEnd {name : String} {target : Option Int} (ht : w.memory.OwnsTarget target)
      (h : Leads (noteEnd s name target) w w')

/-- A row of steps in a body. -/
abbrev Steps (s : Scope) : Walk → Walk → Prop := Relation.ReflTransGen (Step s)

theorem Step.aimed {s : Scope} {w' : Walk} (h : Step s w w') (hw : w.Aimed) : w'.Aimed := by
  cases h with
  | addressOf h => exact (aims_addressOf _).leads hw h
  | variableAt ha h => exact (aims_variableAt ha).leads hw h
  | mark ha h => exact (aims_handles.mark ha _).leads hw h
  | markItself ha h => exact (aims_handles.markItself ha _).leads hw h
  | share h => exact (aims_share _).leads hw h
  | setTarget ht h => exact (aims_setTarget _ ht).leads hw h
  | dropRef ht h => exact (aims_dropRef _ ht).leads hw h
  | noteRef ht h => exact (aims_noteRef _ ht).leads hw h
  | remember ht h => exact (aims_remember ht _).leads hw h
  | declareLocal h => exact (aims_declareLocal _).leads hw h
  | forgetEnds h => exact aims_forgetEnds.leads hw h
  | noteEnd ht h => exact (aims_handles.noteEnd (aims_addressOf _) ht).leads hw h

/-- A row of steps keeps what is held at blocks. -/
theorem Steps.aimed {s : Scope} {w' : Walk} (h : Steps s w w') (hw : w.Aimed) : w'.Aimed := by
  induction h with
  | refl => exact hw
  | tail _ hstep ih => exact hstep.aimed ih

/-! ## Rows of steps -/

/-- Reached from `w₀` by steps in a body, with all that is held at blocks. -/
structure Passed (s : Scope) (w₀ w : Walk) : Prop where
  aimed : w.Aimed
  steps : Steps s w₀ w

/-- A row of steps in a body that minds its addresses. -/
abbrev MindsIn {α : Type} (s : Scope) (w₀ : Walk) (m₀ : Memory) (V : α → Memory → Prop)
    (x : WalkM α) : Prop :=
  Minds (Passed s w₀) memory m₀ V x

/-- The result says nothing about addresses. -/
abbrev MindsAny {α : Type} (s : Scope) (w₀ : Walk) (m₀ : Memory) (x : WalkM α) : Prop :=
  MindsIn s w₀ m₀ (fun _ _ => True) x

/-- The result is an address, if there is one. -/
abbrev Finds? (s : Scope) (w₀ : Walk) (m₀ : Memory) (x : WalkM (Option Nat)) : Prop :=
  MindsIn s w₀ m₀ (fun found m => ∀ c : Nat, found = some c → m.Owns c) x

/-- The result is the target of a pointer, if there is one. -/
abbrev FindsTarget? (s : Scope) (w₀ : Walk) (m₀ : Memory) (x : WalkM (Option Int)) : Prop :=
  MindsIn s w₀ m₀ (fun target m => m.OwnsTarget target) x

section Steps

variable {m₀ m : Memory} {s : Scope} {w₀ : Walk} {α : Type} {a : Int} {actuals : List Actual}
variable {V : α → Memory → Prop} {x : WalkM α}

/-- One step is a row of steps. -/
theorem minds_step (hx : Aims m₀ V x)
    (hstep : ∀ w w', Grows m₀ w.memory → Leads x w w' → Step s w w') : MindsIn s w₀ m₀ V x := by
  constructor
  intro w hw hg
  have hends := hx.ends w hw.aimed hg
  have hsteps {w' : Walk} (h : Leads x w w') : Steps s w₀ w' := hw.steps.tail (hstep w w' hg h)
  constructor
  · intro a w' h
    obtain ⟨haimed, hgrows, hv⟩ := hends.value a w' h
    exact ⟨⟨haimed, hsteps (.inl ⟨a, h⟩)⟩, hgrows, hv⟩
  · intro e w' h
    obtain ⟨hin, hrest⟩ := hends.fault e w' h
    exact ⟨hin, fun hne => ⟨⟨(hrest hne).1, hsteps (.inr ⟨e, hne, h⟩)⟩, (hrest hne).2⟩⟩

theorem minds_pure (a : α) : MindsAny s w₀ m₀ (pure a) := .pure fun _ _ => trivial

theorem minds_none : FindsTarget? s w₀ m₀ (pure none) := .pure fun _ _ => ownsTarget_none

theorem minds_addressOf (name : String) : Finds? s w₀ m₀ (addressOf s name) :=
  minds_step (aims_addressOf name) fun _ _ _ h => .addressOf h

theorem minds_variableAt (ha : m₀.Owns a) :
    MindsIn s w₀ m₀ (fun found m => ∀ id v, found = some (id, v) → m.OwnsTarget v.target)
      (variableAt a) :=
  minds_step (aims_variableAt ha) fun _ _ hg h => .variableAt (ha.grows hg) h

theorem minds_mark (ha : m₀.Owns a) (use : Use) : MindsAny s w₀ m₀ (mark s use a) :=
  minds_step (aims_handles.mark ha use) fun _ _ hg h => .mark (ha.grows hg) h

theorem minds_markItself (ha : m₀.Owns a) (use : Use) : MindsAny s w₀ m₀ (markItself s use a) :=
  minds_step (aims_handles.markItself ha use) fun _ _ hg h => .markItself (ha.grows hg) h

theorem minds_share (name : String) : MindsAny s w₀ m₀ (share s name) :=
  minds_step (aims_share name) fun _ _ _ h => .share h

theorem minds_declareLocal (i : NodeInfo) : MindsAny s w₀ m₀ (declareLocal s i) :=
  minds_step (aims_declareLocal i) fun _ _ _ h => .declareLocal h

theorem minds_forgetEnds :
    MindsAny s w₀ m₀ (changeRoot s fun f => { f with pointerEnds := {} }) :=
  minds_step aims_forgetEnds fun _ _ _ h => .forgetEnds h

section Target

variable {target : Option Int} (ht : m₀.OwnsTarget target)

include ht

theorem minds_setTarget (key : String) : MindsAny s w₀ m₀ (setTarget key target) :=
  minds_step (aims_setTarget key ht) fun _ _ hg h => .setTarget (ht.grows hg) h

theorem minds_dropRef (key : String) : MindsAny s w₀ m₀ (dropRef key target) :=
  minds_step (aims_dropRef key ht) fun _ _ hg h => .dropRef (ht.grows hg) h

theorem minds_noteRef (key : String) : MindsAny s w₀ m₀ (noteRef key target) :=
  minds_step (aims_noteRef key ht) fun _ _ hg h => .noteRef (ht.grows hg) h

theorem minds_remember (known : Option (VarId × Variable)) :
    MindsAny s w₀ m₀ (remember target known) :=
  minds_step (aims_remember ht known) fun _ _ hg h => .remember (ht.grows hg) h

theorem minds_noteEnd (name : String) : MindsAny s w₀ m₀ (noteEnd s name target) :=
  minds_step (aims_handles.noteEnd (aims_addressOf name) ht) fun _ _ hg h =>
    .noteEnd (ht.grows hg) h

end Target

theorem minds_addressIn (name : String) : Finds? s w₀ m₀ (addressIn s name) := by
  refine .bind (minds_addressOf name) fun a m _ ha => ?_
  cases a with
  | none => exact minds_addressOf _
  | some a => exact .pure fun m' hg c hc => (ha c hc).grows hg

/-! ## Pointers -/

theorem minds_pointerKey (name : String) : MindsAny s w₀ m₀ (pointerKey s name) := by
  refine (finds_pointerKey (N := fun _ _ => True) (fun _ => ?_) (fun _ _ _ => trivial)
    fun h _ => h).mono fun _ _ _ _ => trivial
  refine finds_pointerNamed (minds_addressOf _) (fun ha => ?_) fun h _ => h
  exact (minds_variableAt ha).mono fun _ _ _ _ _ _ _ _ => trivial

theorem minds_variableOf (key : String) :
    MindsIn s w₀ m₀ (fun found m => ∀ id v, found = some (id, v) → m.OwnsTarget v.target)
      (variableOf s key) := by
  refine .bind (minds_addressOf key) fun a m _ ha => ?_
  cases a with
  | none => exact .pure fun _ _ _ _ h => nomatch h
  | some a => exact minds_variableAt (ha a rfl)

/-- What a variable remembers is owned, if its target is. -/
theorem ownsTarget_remembered {known : Option (VarId × Variable)}
    (h : ∀ id v, known = some (id, v) → m.OwnsTarget v.target) :
    m.OwnsTarget (remembered known) := by
  cases known with
  | none => exact ownsTarget_none
  | some known =>
    unfold remembered
    dsimp only
    split
    · intro a ha
      exact h _ _ rfl a (Option.filter_eq_some_iff.mp ha).1
    · exact ownsTarget_none

theorem minds_currentTarget (key : String) : FindsTarget? s w₀ m₀ (currentTarget key) :=
  .get_bind fun _ hw _ => .pure fun _ hg => (hw.aimed.pointers.get? key).grows hg

theorem minds_repoint (key : String) {target : Option Int} (h : m₀.OwnsTarget target) :
    MindsAny s w₀ m₀ (repoint s key target) := by
  refine .bind (minds_currentTarget key) fun current m₁ hg₁ hcurrent => ?_
  refine .bind (minds_variableOf key) fun known m₂ hg₂ hknown => ?_
  have hold : m₂.OwnsTarget (current <|> remembered known) := by
    cases current with
    | some a => exact hcurrent.grows hg₂
    | none => exact ownsTarget_remembered hknown
  have h₂ := h.grows (hg₁.trans hg₂)
  refine .bind (minds_dropRef hold key) fun _ m₃ hg₃ _ => ?_
  refine .bind (minds_setTarget (h₂.grows hg₃) key) fun _ m₄ hg₄ _ => ?_
  refine .bind (minds_remember ((h₂.grows hg₃).grows hg₄) known) fun _ m₅ hg₅ _ => ?_
  exact minds_noteRef (((h₂.grows hg₃).grows hg₄).grows hg₅) key

/-! ## The walk -/

/-- While a body is walked, all that is held is at blocks. -/
def minding (s : Scope) (w₀ : Walk) : Growing where
  state := Passed s w₀
  address m a := m.Owns a
  name _ _ := True
  node _ := True
  grows_address h hg := h.grows hg
  grows_name h _ := h

theorem minds_declared (i : NodeInfo) : MindsAny s w₀ m₀ (declared s i) := by
  refine .bind (minds_declareLocal i) fun _ _ _ _ => ?_
  refine .bind (V := fun _ _ => True) ?_ fun t _ _ _ => ?_
  · unfold typeOf
    split
    · exact minds_pure _
    · exact .throw id
  · split
    · exact .bind (minds_setTarget ownsTarget_none _) fun _ _ _ _ => minds_pure _
    · exact minds_pure _

/-- The steps of a body mind their addresses. -/
theorem sound_minding (calls : CallIndex) (s : Scope) (w₀ : Walk) (m₀ : Memory) :
    ((minding s w₀).guard m₀).Sound calls s fun _ => True where
  extend h _ := h
  spelled _ _ := trivial
  target hw key := hw.1.aimed.pointers.get? key
  addressOf _ := Growing.passes (minds_addressOf _)
  addressIn _ := Growing.passes (minds_addressIn _)
  variableAt ha := Growing.passes ((minds_variableAt ha).mono fun _ _ _ hv id v hf =>
    ⟨trivial, hv id v hf⟩)
  pointerKey _ := Growing.passes ((minds_pointerKey _).mono fun _ _ _ _ _ _ => trivial)
  share n := Growing.passes (minds_share n)
  mark _ ha := Growing.passes (minds_mark ha _)
  markItself _ ha := Growing.passes (minds_markItself ha _)
  reads := trivial
  assigns _ _ _ := trivial
  callee _ _ _ _ hw hf :=
    ⟨⟨fun _ _ _ => trivial, (hw.1.aimed.functions _ (Array.mem_of_getElem? hf)).ends⟩,
      fun _ => trivial⟩
  repoint _ ht := Growing.passes (minds_repoint _ ht)
  declared _ _ _ := (Growing.passes (minds_declared _)).mono fun _ _ _ _ _ => trivial

/-- All trees may be walked. -/
theorem every_minding (s : Scope) (w₀ : Walk) (n : Node) : n.Every (minding s w₀).node :=
  Node.every_of_forall (fun _ => trivial) n

theorem minds_of_passes (h : ∀ m, ((minding s w₀).guard m).Passes m₀ V x) :
    MindsIn s w₀ m₀ V x :=
  ⟨fun _ hw hg => Growing.mindsAt (h _) hw hg⟩

theorem minds_pointerName (n : Node) : MindsAny s w₀ m₀ (pointerName s n) :=
  minds_of_passes fun m => ((sound_minding {} s w₀ m).pointerName m₀ n (every_minding s w₀ n)).mono
    fun _ _ _ _ => trivial

theorem minds_derefTarget (n : Node) : FindsTarget? s w₀ m₀ (derefTarget s n) :=
  minds_of_passes fun m => (sound_minding {} s w₀ m).derefTarget (every_minding s w₀ n)

/-- What is passed for parameters are addresses of blocks. -/
def OwnsActuals (m : Memory) (actuals : List Actual) : Prop :=
  ∀ x ∈ actuals, m.OwnsTarget x.target

theorem OwnsActuals.grows {m' : Memory} (h : OwnsActuals m actuals)
    (hg : Grows m m') : OwnsActuals m' actuals :=
  fun x hx => (h x hx).grows hg

theorem minds_actualOf? (callee : Function) (param : Label) (argument : Node) :
    MindsIn s w₀ m₀ (fun found m => ∀ x, found = some x → m.OwnsTarget x.target)
      (actualOf? s callee param argument) :=
  minds_of_passes fun m => ((sound_minding {} s w₀ m).actualOf? callee param
    (every_minding s w₀ argument)).mono fun _ _ _ h x hx => (h x hx).1

theorem minds_actualsOf (callee : Function) {found : List Actual} (args : List (Label × Node))
    (h : OwnsActuals m₀ found) :
    MindsIn s w₀ m₀ (fun actuals m => OwnsActuals m actuals) (actualsOf s callee found args) :=
  minds_of_passes fun m => ((sound_minding {} s w₀ m).actualsOf callee args
    (fun x hx => ⟨h x hx, fun _ _ => trivial⟩) fun e _ => every_minding s w₀ e.2).mono
      fun _ _ _ h x hx => (h x hx).1

theorem minds_mergeUse (callee : Function) {use : Use}
    (h : OwnsActuals m₀ actuals) (name : String) :
    MindsAny s w₀ m₀ (mergeUse s callee actuals use name) :=
  minds_of_passes fun m => (sound_minding {} s w₀ m).mergeUse trivial
    (fun x hx => ⟨h x hx, fun _ _ => trivial⟩) callee fun _ => trivial

theorem minds_readEach (cs : List Node) (places : List Nat) :
    MindsAny s w₀ m₀ ((stepsAt (readEach s cs) places).forM id) :=
  minds_of_passes fun m => Guard.passes_stepsAt ((sound_minding {} s w₀ m).readEach trivial m₀ cs
    (Node.everyIn_of_forall (fun _ => trivial) cs)) places

/-- The walk over any tree minds its addresses. -/
theorem minds_walk (calls : CallIndex) (n : Node) : MindsAny s w₀ m₀ (walk calls s n) :=
  minds_of_passes fun m => (sound_minding calls s w₀ m).walk m₀ n (every_minding s w₀ n)

theorem minds_walkBody (calls : CallIndex) (body : Node) :
    MindsAny s w₀ m₀ (walkBody calls s body) :=
  minds_of_passes fun m => (sound_minding calls s w₀ m).walkBody (every_minding s w₀ body)

/-! ## Whole functions -/

theorem minds_configuredTarget (target : Option String) :
    FindsTarget? s w₀ m₀ (configuredTarget s target) := by
  unfold configuredTarget
  split
  · refine .bind (minds_addressOf _) fun found _ _ hfound => .pure fun _ hg a ha => ?_
    obtain ⟨c, hc, rfl⟩ := Option.map_eq_some_iff.mp ha
    exact (hfound c hc).grows hg
  · exact minds_none

theorem minds_assignConfigured (pointer : String) (target : Option String) :
    MindsAny s w₀ m₀ (assignConfigured s pointer target) := by
  refine .bind (minds_addressOf pointer) fun a _ _ ha => ?_
  cases a with
  | none => exact minds_pure _
  | some a =>
    refine .bind (minds_configuredTarget target) fun _ _ hg₁ ht => ?_
    refine .bind (minds_currentTarget pointer) fun _ _ hg₂ hcurrent => ?_
    refine .bind (minds_dropRef hcurrent pointer) fun _ _ hg₃ _ => ?_
    have ht₃ := ht.grows (hg₂.trans hg₃)
    refine .bind (minds_setTarget ht₃ pointer) fun _ _ hg₄ _ => ?_
    have ha₄ := (ha a rfl).grows (hg₁.trans (hg₂.trans (hg₃.trans hg₄)))
    refine .bind (minds_variableAt ha₄) fun v _ hg₅ _ => ?_
    have ht₅ := ht₃.grows (hg₄.trans hg₅)
    exact .bind (minds_remember ht₅ v) fun _ _ hg₆ _ => minds_noteRef (ht₅.grows hg₆) pointer

theorem minds_noteEnds : ∀ {m₀ : Memory} {ends : List (String × Option Int)},
    (∀ e ∈ ends, m₀.OwnsTarget e.2) → MindsAny s w₀ m₀ (noteEnds s ends)
  | _, [], _ => minds_pure _
  | _, (name, _) :: _, h =>
      .bind (minds_noteEnd (h _ (List.mem_cons_self ..)) name) fun _ _ hg _ =>
        minds_noteEnds fun e he => (h e (List.mem_cons_of_mem _ he)).grows hg

/-- So does a whole function. -/
theorem minds_perform (calls : CallIndex) (f : Function) :
    MindsAny s w₀ m₀ (perform calls s f) := by
  have hbody : MindsAny s w₀ m₀ (performBody calls s f) := by
    unfold performBody
    split
    · exact minds_walkBody calls _
    · exact .forM fun e _ => minds_assignConfigured e.1 e.2
  exact .bind hbody fun _ _ _ _ => .bind minds_forgetEnds fun _ _ _ _ =>
    .get_bind fun _ hw _ => minds_noteEnds fun e he => hw.aimed.pointers e he

end Steps

end Walk

end Footprint
