import Footprint.Proofs.Guard.Walk

/-!
# What a walk keeps

A walk over a body is put together from a few steps: looking up an address or a
variable, noting a use, noting a shared name, moving a pointer, and laying out a
local.  A property of the state that each of these keeps is kept by the walk
over any tree: it is a guard (`still`) to which all names and addresses are the
same.  `Stable` lists the steps, `Looks` those of them that move no pointer and
lay out no local, `Finds` those that note no use either.

`Outer` is the simplest case.  It is for properties that speak neither of the
memory nor of pointers nor of what was written, and that a change of the record
of the walked function keeps.
-/

namespace Footprint.Walk

open Analysis

/-- Looking things up and sharing names keeps a property. -/
structure Finds (s : Scope) (I : Walk → Prop) : Prop where
  address : ∀ name, Keeps I (addressOf s name)
  look : ∀ a, Keeps I (variableAt a)
  share : ∀ name, Keeps I (share s name)

/-- Noting uses of one kind keeps a property, too. -/
structure Marks (s : Scope) (use : Use) (I : Walk → Prop) : Prop extends Finds s I where
  mark : ∀ a, Keeps I (mark s use a)
  markItself : ∀ a, Keeps I (markItself s use a)

/-- The steps that move no pointer and lay out no local keep a property. -/
structure Looks (s : Scope) (I : Walk → Prop) : Prop extends Finds s I where
  mark : ∀ use a, Keeps I (mark s use a)
  markItself : ∀ use a, Keeps I (markItself s use a)

/-- The steps that a walk is put together from keep a property. -/
structure Stable (s : Scope) (I : Walk → Prop) : Prop extends Looks s I where
  repoint : ∀ key target, Keeps I (repoint s key target)
  forget : ∀ key, Keeps I (setTarget key none)
  declare : ∀ i, Keeps I (declareLocal s i)

/-- A property that the steps of a body keep, where all names and addresses may be come by. -/
def still (p : NodeInfo → Prop) (I : Walk → Prop) : Guard where
  state := I
  fault _ := I
  later _ _ := True
  address _ _ := True
  name _ _ := True
  node := p
  refl _ := trivial
  trans _ _ := trivial
  later_address h _ := h
  later_name h _ := h
  stop h := h

section Still

variable {α : Type} {s : Scope} {use : Use} {I : Walk → Prop} {p : NodeInfo → Prop}
variable {V : α → Memory → Prop} {m : Memory} {x : WalkM α}

theorem passes_still (h : Keeps I x) (hV : ∀ a m', V a m') : (still p I).Passes m V x :=
  ⟨fun w hw _ => (h.ends w hw).mono (fun a _ hI => ⟨hI, trivial, hV a _⟩) fun _ _ hI => hI⟩

theorem keeps_of_still (h : (still p I).Passes {} V x) : Keeps I x :=
  ⟨fun w hw => (h.ends w hw trivial).mono (fun _ _ ha => ha.1) fun _ _ hI => hI⟩

/-- All trees may be walked. -/
theorem every_still (n : Node) : n.Every (still (fun _ => True) I).node :=
  Node.every_of_forall (fun _ => trivial) n

theorem actuals_still (xs : List Actual) : (still p I).Actuals xs m :=
  fun _ _ => ⟨fun _ _ => trivial, fun _ _ => trivial⟩

theorem keeps_currentTarget (key : String) : Keeps I (currentTarget key) :=
  .bind .get fun _ => .pure _

theorem keeps_typeOf (i : NodeInfo) : Keeps I (typeOf i) := by
  unfold typeOf
  split
  · exact .pure _
  · exact .throw _

theorem keeps_declared {i : NodeInfo} (hd : Keeps I (declareLocal s i))
    (hf : ∀ key, Keeps I (setTarget key none)) : Keeps I (declared s i) := by
  refine .bind hd fun _ => .bind (keeps_typeOf i) fun t => ?_
  split
  · exact .bind (hf _) fun _ => .pure _
  · exact .pure _

section Finds

variable (h : Finds s I)

include h

theorem Finds.pointerNamed (name : String) : Keeps I (pointerNamed s name) := by
  refine .bind (h.address name) fun a => ?_
  cases a with
  | none => exact .pure _
  | some a =>
    refine .bind (h.look a) fun v => ?_
    cases v with
    | none => exact .pure _
    | some v => exact .pure _

theorem Finds.pointerKey (name : String) : Keeps I (pointerKey s name) := by
  unfold Walk.pointerKey
  split
  · exact .pure _
  · refine .bind (h.pointerNamed _) fun own => ?_
    cases own with
    | some key => exact .pure _
    | none =>
      refine .bind (h.pointerNamed _) fun outer => ?_
      cases outer with
      | some key => exact .pure _
      | none => exact .bind .get fun w => .pure _

theorem Finds.addressIn (name : String) : Keeps I (addressIn s name) := by
  refine .bind (h.address name) fun a => ?_
  cases a with
  | none => exact h.address _
  | some a => exact .pure _

/-- What lookups keep is a guard for them. -/
theorem Finds.still : (still p I).Finds s where
  extend h _ := h
  spelled _ _ := trivial
  target _ _ _ _ := trivial
  addressOf _ := passes_still (h.address _) fun _ _ _ _ => trivial
  addressIn _ := passes_still (h.addressIn _) fun _ _ _ _ => trivial
  variableAt _ := passes_still (h.look _) fun _ _ _ _ _ => ⟨trivial, fun _ _ => trivial⟩
  pointerKey _ := passes_still (h.pointerKey _) fun _ _ _ _ => trivial
  share n := passes_still (h.share n) fun _ _ => trivial

theorem Finds.actualsOf (callee : Function) (found : List Actual) (args : List (Label × Node)) :
    Keeps I (actualsOf s callee found args) :=
  keeps_of_still (h.still.actualsOf callee args (actuals_still found) fun e _ => every_still e.2)

theorem Finds.targetInCaller (start : String) (actuals : List Actual) (target : Option Int) :
    Keeps I (targetInCaller s start actuals target) :=
  keeps_of_still ((h.still (p := fun _ => True)).targetInCaller (actuals_still actuals) start
    fun _ _ => trivial)

theorem Finds.pointerInCaller (start : String) (actuals : List Actual) (name : String) :
    Keeps I (pointerInCaller start actuals name) :=
  keeps_of_still ((h.still (p := fun _ => True)).pointerInCaller (actuals_still actuals) start
    trivial)

theorem Finds.mergePointer (hr : ∀ key target, Keeps I (repoint s key target)) (callee : Function)
    (actuals : List Actual) (pointer : Nat) (target : Option Int) :
    Keeps I (mergePointer s callee actuals pointer target) :=
  keeps_of_still ((h.still (p := fun _ => True)).mergePointer (actuals_still actuals)
    (fun _ _ => passes_still (hr _ _) fun _ _ => trivial) callee trivial fun _ _ => trivial)

end Finds

theorem Looks.marks (h : Looks s I) (use : Use) : Marks s use I :=
  ⟨h.toFinds, h.mark use, h.markItself use⟩

/-- What marks keep is a guard for them. -/
theorem Marks.still (h : Marks s use I) : (still p I).Marks s (· = use) where
  toFinds := h.toFinds.still
  mark hu _ := passes_still (hu ▸ h.mark _) fun _ _ => trivial
  markItself hu _ := passes_still (hu ▸ h.markItself _) fun _ _ => trivial

theorem Marks.mergeUse (h : Marks s use I) (callee : Function) (actuals : List Actual)
    (name : String) : Keeps I (mergeUse s callee actuals use name) :=
  keeps_of_still ((h.still (p := fun _ => True)).mergeUse rfl (actuals_still actuals) callee
    fun _ => trivial)

theorem Marks.readEach (h : Marks s .read I) (cs : List Node) (places : List Nat) :
    Keeps I ((stepsAt (readEach s cs) places).forM id) :=
  keeps_of_still (Guard.passes_stepsAt ((h.still (p := fun _ => True)).readEach rfl {} cs
    (Node.everyIn_of_forall (fun _ => trivial) cs)) places)

theorem Stable.still (h : Stable s I) (calls : CallIndex) :
    (still (fun _ => True) I).Sound calls s fun _ => True where
  toFinds := h.toFinds.still
  mark _ _ := passes_still (h.mark _ _) fun _ _ => trivial
  markItself _ _ := passes_still (h.markItself _ _) fun _ _ => trivial
  reads := trivial
  assigns _ _ _ := trivial
  callee _ _ _ _ _ _ :=
    ⟨⟨fun _ _ _ => trivial, fun _ _ => ⟨trivial, fun _ _ => trivial⟩⟩, fun _ => trivial⟩
  repoint _ _ := passes_still (h.repoint _ _) fun _ _ => trivial
  declared _ _ _ := passes_still (keeps_declared (h.declare _) h.forget) fun _ _ _ => trivial

/-- What the steps keep, the walk over a body keeps. -/
theorem Stable.walkBody (h : Stable s I) {calls : CallIndex} (body : Node) :
    Keeps I (walkBody calls s body) :=
  keeps_of_still ((h.still calls).walkBody (every_still body))

end Still

/-! ## Properties of the rest of the state -/

section Steps

variable {s : Scope} {use : Use} {I : Walk → Prop}

theorem keeps_mark_of {a : Int} (hlook : Keeps I (variableAt a))
    (hread : Keeps I (onMemory (Memory.read a s.name)))
    (hwrite : Keeps I (onMemory (Memory.write a s.name)))
    (hnote : ∀ name, Keeps I (noteName s use name))
    (hwritten : ∀ n w, I w → I { w with written := n }) : Keeps I (mark s use a) := by
  refine .bind hlook fun v => ?_
  cases v with
  | none => exact .pure _
  | some v =>
    dsimp only
    split
    · exact .pure _
    · cases use with
      | read =>
        refine .bind .get fun w => ?_
        split
        · exact .pure _
        · exact .bind hread fun _ => hnote _
      | write =>
        exact .bind hwrite fun _ => .bind (hnote _) fun _ => .modify fun w hw => hwritten _ w hw

theorem keeps_share_of (name : String)
    (h : ∀ g : Function → Function, (∀ f, ∃ shared, g f = { f with shared }) →
      Keeps I (changeRoot s g)) : Keeps I (share s name) := by
  unfold share
  split
  · exact .pure _
  · exact h _ fun f => ⟨_, rfl⟩

end Steps

/-- The steps that a pointer is moved by keep a property. -/
structure Moves (s : Scope) (I : Walk → Prop) : Prop where
  address : ∀ name, Keeps I (addressOf s name)
  look : ∀ a, Keeps I (variableAt a)
  addRef : ∀ a key, Keeps I (onMemory (Memory.addRef a key))
  removeRef : ∀ a key, Keeps I (onMemory (Memory.removeRef a key))
  target : ∀ id target, Keeps I (onMemory (Memory.change id fun v => { v with target }))
  setTarget : ∀ key target, Keeps I (setTarget key target)

section Moves

variable {s : Scope} {I : Walk → Prop} {target : Option Int}

theorem keeps_remember_of
    (h : ∀ id, Keeps I (onMemory (Memory.change id fun v => { v with target })))
    (known : Option (VarId × Variable)) : Keeps I (remember target known) := by
  cases known with
  | none => exact .pure _
  | some known =>
    unfold Walk.remember
    dsimp only
    split
    · exact h _
    · exact .pure _

theorem keeps_configuredTarget_of (h : ∀ name, Keeps I (addressOf s name))
    (target : Option String) : Keeps I (configuredTarget s target) := by
  unfold configuredTarget
  split
  · exact .bind (h _) fun _ => .pure _
  · exact .pure _

theorem keeps_noteEnd_of (haddress : ∀ name, Keeps I (addressOf s name))
    (hlook : ∀ a, Keeps I (variableAt a))
    (hends : ∀ e : Table Nat (Option Int) → Table Nat (Option Int),
      Keeps I (changeRoot s fun f => { f with pointerEnds := e f.pointerEnds }))
    (name : String) (target : Option Int) : Keeps I (noteEnd s name target) := by
  refine .bind (haddress name) fun a => ?_
  cases a with
  | none => exact .pure _
  | some a =>
    refine .bind (hlook a) fun v => ?_
    cases v with
    | none => exact .pure _
    | some v =>
      dsimp only
      split
      · exact hends fun t => t.set a (target <|> v.2.liveTarget)
      · exact .pure _

theorem keeps_noteEnds_of (h : ∀ name target, Keeps I (noteEnd s name target)) :
    ∀ ends : List (String × Option Int), Keeps I (noteEnds s ends)
  | [] => .pure _
  | (name, target) :: rest => .bind (h name target) fun _ => keeps_noteEnds_of h rest

variable (h : Moves s I)

include h

theorem Moves.dropRef (key : String) (a : Option Int) : Keeps I (dropRef key a) := by
  cases a with
  | none => exact .pure _
  | some a => exact h.removeRef a key

theorem Moves.noteRef (key : String) (a : Option Int) : Keeps I (noteRef key a) := by
  cases a with
  | none => exact .pure _
  | some a => exact h.addRef a key

theorem Moves.remember (target : Option Int) (known : Option (VarId × Variable)) :
    Keeps I (remember target known) :=
  keeps_remember_of (h.target · target) known

/-- It is kept when a pointer is aimed elsewhere. -/
theorem Moves.repoint (key : String) (target : Option Int) : Keeps I (repoint s key target) := by
  have hknown : Keeps I (variableOf s key) := by
    refine .bind (h.address key) fun a => ?_
    cases a with
    | none => exact .pure _
    | some a => exact h.look a
  exact .bind (keeps_currentTarget key) fun _ => .bind hknown fun _ =>
    .bind (h.dropRef key _) fun _ => .bind (h.setTarget key target) fun _ =>
      .bind (h.remember target _) fun _ => h.noteRef key target

theorem Moves.assignConfigured (pointer : String) (target : Option String) :
    Keeps I (assignConfigured s pointer target) := by
  refine .bind (h.address pointer) fun a => ?_
  cases a with
  | none => exact .pure _
  | some a =>
    exact .bind (keeps_configuredTarget_of h.address target) fun _ =>
      .bind (keeps_currentTarget pointer) fun _ => .bind (h.dropRef pointer _) fun _ =>
        .bind (h.setTarget pointer _) fun _ => .bind (h.look _) fun _ =>
          .bind (h.remember _ _) fun _ => h.noteRef pointer _

/-- What a function does is to walk its body or to set pointers, and to note where they point. -/
theorem Moves.perform (hends : ∀ e : Table Nat (Option Int) → Table Nat (Option Int),
      Keeps I (changeRoot s fun f => { f with pointerEnds := e f.pointerEnds }))
    {calls : CallIndex} {f : Function}
    (hbody : ∀ body, f.body = some body → Keeps I (walkBody calls s body)) :
    Keeps I (perform calls s f) := by
  refine .bind ?_ fun _ => .bind (hends fun _ => {}) fun _ => .bind .get fun _ =>
    keeps_noteEnds_of (keeps_noteEnd_of h.address h.look hends) _
  unfold performBody
  split
  · next body hf => exact hbody body hf
  · exact .forM fun e _ => h.assignConfigured e.1 e.2

end Moves

/-- The property speaks neither of the memory nor of pointers. -/
structure OfNotes (I : Walk → Prop) : Prop where
  memory : ∀ m w, I w → I { w with memory := m }
  pointers : ∀ t w, I w → I { w with pointers := t }

section OfNotes

variable {s : Scope} {use : Use} {I : Walk → Prop} (h : OfNotes I)

include h

theorem OfNotes.onMemory {α : Type} (x : MemM α) : Keeps I (onMemory x) := .zoom x h.memory

theorem OfNotes.markItself (hn : ∀ name, Keeps I (noteName s use name)) (a : Int) :
    Keeps I (markItself s use a) := by
  refine .bind (h.onMemory _) fun v => ?_
  cases v with
  | none => exact .pure _
  | some v => exact .bind (h.onMemory _) fun _ => hn _

theorem OfNotes.moves (s : Scope) : Moves s I where
  address _ := h.onMemory _
  look _ := h.onMemory _
  addRef _ _ := h.onMemory _
  removeRef _ _ := h.onMemory _
  target _ _ := h.onMemory _
  setTarget _ _ := .modify fun w hw => h.pointers _ w hw

theorem OfNotes.declareLocal (i : NodeInfo) : Keeps I (declareLocal s i) := by
  refine .bind (h.onMemory _) fun a => ?_
  cases a with
  | some a => exact .pure _
  | none =>
    exact .bind (keeps_typeOf i) fun _ => .bind (h.onMemory _) fun _ =>
      .bind (h.onMemory _) fun _ => .pure _

end OfNotes

/-- The property speaks of the records of functions only. -/
structure OfRecords (I : Walk → Prop) : Prop extends OfNotes I where
  written : ∀ n w, I w → I { w with written := n }

section OfRecords

variable {s : Scope} {use : Use} {I : Walk → Prop} (h : OfRecords I)

include h

theorem OfRecords.mark (hn : ∀ name, Keeps I (noteName s use name)) (a : Int) :
    Keeps I (mark s use a) :=
  keeps_mark_of (h.onMemory _) (h.onMemory _) (h.onMemory _) hn h.written

end OfRecords

/-- A change of the record of the walked function keeps the property, too. -/
structure Outer (s : Scope) (I : Walk → Prop) : Prop extends OfRecords I where
  root : ∀ f w, I w → I { w with functions := w.functions.modify s.root f }

section Outer

variable {s : Scope} {I : Walk → Prop} (h : Outer s I)

include h

theorem Outer.changeRoot (f : Function → Function) : Keeps I (changeRoot s f) :=
  .modify (h.root f)

theorem Outer.stable : Stable s I where
  address _ := h.onMemory _
  look _ := h.onMemory _
  mark _ := h.mark fun _ => h.changeRoot _
  markItself _ := h.markItself fun _ => h.changeRoot _
  share name := keeps_share_of name fun g _ => h.changeRoot g
  repoint := (h.moves s).repoint
  forget key := (h.moves s).setTarget key none
  declare := h.declareLocal

theorem Outer.perform (calls : CallIndex) (f : Function) : Keeps I (perform calls s f) :=
  (h.moves s).perform (fun _ => h.changeRoot _) fun _ _ => h.stable.walkBody _

end Outer

end Footprint.Walk
