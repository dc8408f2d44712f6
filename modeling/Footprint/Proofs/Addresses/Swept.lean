import Footprint.Proofs.Addresses.Calls
import Footprint.Proofs.Call.Members
import Footprint.Proofs.Memory.History

/-!
# Forgetting the record of pointers

Pointers recorded at blocks are forgotten before each body.  Not all blocks are
looked at for this, only those that count as changed since the last time.  That
is enough, since every block with a pointer is among them (`Tracked`), after any
calls and also after one that ended in a fault.  So the memory afterwards is the
one in which every block has been emptied, which is `swept`.

In a project that is reached the record before a body is then made of the global
initialisers alone.
-/

namespace Footprint

open Memory

theorem NameSet.eq_empty {s : NameSet} (h : ∀ n, n ∉ s) : s = {} :=
  congrArg NameSet.mk (List.eq_nil_iff_forall_not_mem.mpr h)

namespace Memory

variable {T : TypeTable} {m : Memory}

/-! ## Calls -/

section Laying

variable {J : Memory → Prop} (h : Laying J)

include h

theorem Laying.allocateParams (hadd : ∀ a p, Keeps J (addRef a p)) :
    ∀ (ids : List VarId) (noted : Table String Nat), Keeps J (allocateParams T noted ids)
  | [], _ => .pure _
  | id :: ids, noted =>
    .bind (h.allocateParam hadd noted id) fun _ => Laying.allocateParams hadd ids _

theorem Laying.element (array : Nat) (name : String) {s : Slot} (hs : s.IsElement) :
    Keeps J (element T array name s) :=
  ⟨fun _ hm => (h.spreads.element_ends settled_of_keeps array name hs hm).mono (fun _ _ hr => hr.1)
    fun _ _ hr => hr⟩

theorem Laying.elementsFrom (array : Nat) (name : String) :
    ∀ left i : Nat, Keeps J (elementsFrom T array name i left)
  | 0, _ => .pure _
  | left + 1, i =>
    .bind (h.element array name (s := .element i) trivial) fun _ =>
      Laying.elementsFrom array name left (i + 1)

theorem Laying.initialTarget (pointers : Table String (Option Int)) (init : Node) :
    Keeps J (initialTarget T pointers init) := by
  rw [initialTarget_eq]
  split
  · exact .pure _
  · exact .bind (h.resolve _) fun _ => .pure _
  · exact .pure _

end Laying

theorem tracked_change (id : VarId) (f : Variable → Variable) : Keeps Tracked (change id f) :=
  .modify fun _ hm => hm.setVar id f

theorem tracked_becomeArray (a : Nat) (id : VarId) (name base : String) (length : Int) :
    Keeps Tracked (becomeArray T a id name base length) :=
  .bind (tracked_change id _) fun _ =>
    .bind (laying_tracked.element a name (s := .anyElement) trivial) fun _ =>
      laying_tracked.elementsFrom a name _ 0

theorem Tracked.hideUnder (h : m.Tracked) (name : String) (b : Option Block) :
    (hideUnder name m b).Tracked := by
  unfold Memory.hideUnder
  split
  · exact h
  · split
    · exact h.setVar _ _
    · exact h

theorem tracked_growArray (name base : String) (length : Int) :
    Keeps Tracked (growArray T name base length) := by
  unfold growArray
  split
  · exact .pure _
  · refine .bind .get fun m => ?_
    split
    · exact .pure _
    · refine .bind (keeps_variableAt _) fun v => ?_
      split
      · exact .pure _
      · split
        · exact tracked_becomeArray ..
        · exact .pure _

theorem tracked_paramToArray (name base : String) (length : Int) :
    Keeps Tracked (paramToArray T name base length) := by
  unfold paramToArray
  split
  · exact .pure _
  · refine .bind .get fun m => ?_
    split
    · exact .pure _
    · refine .bind (keeps_variableAt _) fun v => ?_
      split
      · exact .pure _
      · refine .bind (tracked_becomeArray ..) fun _ => .modify fun m hm => ?_
        rw [← Array.foldl_toList]
        exact List.foldlRecOn _ _ hm fun m hm b _ => hm.hideUnder _ b

theorem tracked_collect : Keeps Tracked collect :=
  ⟨fun _ hm => (collect_ends (keeps_liftMarks fun id _ hm _ _ => hm.setVar id _) hm).mono
    (fun _ _ h => h) fun _ _ h => h.2⟩

theorem tracked_call (call : Call) (hcall : call ≠ .clearRefs) : Keeps Tracked (call.run T) := by
  cases call with
  | note id f => exact tracked_change id f
  | allocateParams ids =>
    exact .bind (laying_tracked.allocateParams tracked_addRef ids {}) fun _ => .pure _
  | growArray name base length => exact tracked_growArray name base length
  | paramToArray name base length => exact tracked_paramToArray name base length
  | collect => exact tracked_collect
  | _ =>
    exact laying_tracked.keeps_call tracked_addRef tracked_removeRef _ (fun he => absurd he hcall)
      trivial

/-! ## All blocks emptied -/

/-- The block with no pointers recorded. -/
def Block.emptied (b : Block) : Block := { b with pointers := {} }

/-- The memory with no pointers recorded at any block. -/
def swept (m : Memory) : Memory :=
  { m with blocks := m.blocks.map (Option.map Block.emptied), dirty := [] }

theorem block?_swept (m : Memory) (a : Nat) :
    m.swept.block? a = (m.block? a).map Block.emptied := by
  rw [block?_eq_getElem?, block?_eq_getElem?, swept, Array.getElem?_map,
    Option.join_map_eq_map_join]

theorem pointers_swept {a : Nat} {b : Block} (hb : m.swept.block? a = some b) :
    b.pointers = {} := by
  rw [block?_swept] at hb
  obtain ⟨_, _, rfl⟩ := Option.map_eq_some_iff.mp hb
  rfl

theorem getElem?_foldl_forgetAt (i : Nat) : ∀ (as : List Nat) (m : Memory),
    (as.foldl forgetAt m).blocks[i]? =
      if i ∈ as then m.blocks[i]?.map (Option.map Block.emptied) else m.blocks[i]?
  | [], _ => rfl
  | a :: as, m => by
    have hfirst : (m.forgetAt a).blocks[i]? =
        if a = i then m.blocks[i]?.map (Option.map Block.emptied) else m.blocks[i]? :=
      Array.getElem?_modify
    have htwice : Block.emptied ∘ Block.emptied = Block.emptied := rfl
    rw [List.foldl_cons, getElem?_foldl_forgetAt i as, hfirst]
    by_cases ha : a = i
    · simp [ha, Option.map_comp_map, htwice]
    · simp [ha, Ne.symm ha]

theorem foldl_forgetAt_rest (as : List Nat) (m : Memory) :
    as.foldl forgetAt m = { m with blocks := (as.foldl forgetAt m).blocks } := by
  induction as generalizing m with
  | nil => rfl
  | cons a as ih => exact ih (m.forgetAt a)

/-- A block that does not count as changed has nothing to be forgotten. -/
theorem Tracked.cleared (h : m.Tracked) : m.cleared = m.swept := by
  have hblocks : (m.dirty.foldl forgetAt m).blocks = m.blocks.map (Option.map Block.emptied) := by
    refine Array.ext_getElem? fun i => ?_
    rw [getElem?_foldl_forgetAt, Array.getElem?_map]
    split
    · rfl
    · next hclean =>
      cases hi : m.blocks[i]? with
      | none => rfl
      | some b =>
        cases b with
        | none => rfl
        | some b =>
          have hb : m.block? i = some b := by rw [block?_eq_getElem?, hi]; rfl
          have hnone : b.pointers = {} := NameSet.eq_empty fun p hp => hclean (h i p ⟨b, hb, hp⟩)
          rw [Option.map_some, Option.map_some, Block.emptied, ← hnone]
  rw [Memory.cleared, foldl_forgetAt_rest, hblocks, swept]

/-- Whatever is asked of the memory, every block with pointers counts as changed. -/
theorem Tracked.call (h : m.Tracked) (hl : Linked none m) (call : Call) :
    Ends (call.run T) m (fun _ => Tracked) fun _ => Tracked := by
  by_cases hcall : call = .clearRefs
  · subst hcall
    refine .of_ok (clearRefs_eq hl) ?_
    rintro a p ⟨b, hb, hp⟩
    rw [h.cleared] at hb
    rw [pointers_swept hb] at hp
    cases hp
  · exact (tracked_call call hcall).ends m h

theorem Reached.tracked (h : Reached T m) : m.Tracked := by
  induction h with
  | empty => exact tracked_empty
  | @value m m' call hm _ hrun ih => exact (ih.call hm.linked call).value _ _ hrun
  | @fault m m' call e hm _ hrun _ ih => exact (ih.call hm.linked call).fault _ _ hrun

theorem Reached.clearRefs_eq (h : Reached T m) : clearRefs m = .ok ⟨⟩ m.swept :=
  (Memory.clearRefs_eq h.linked).trans (congrArg _ h.tracked.cleared)

theorem closed_reached (T : TypeTable) : Closed T (Reached T) := by
  rintro m m' call _ hf (⟨_, h⟩ | ⟨e, hne, h⟩) hm
  · exact .value hm hf h
  · exact .fault hm hf h hne

end Memory

namespace Analysis

variable {T : TypeTable} {a a' : Analysis}

/-- Forgets the record of pointers and makes it anew from the global initialisers. -/
def renewRefs (T : TypeTable) : AnalysisM Unit := do
  onMemory clearRefs
  recallPointers T (← get).inits.entries

/-- The analysis of a function begins with it. -/
theorem exists_renewRefs (T : TypeTable) (id : Nat) :
    ∃ body, analyse T id = renewRefs T >>= fun _ => body := by
  simp only [analyse, renewRefs, bind_assoc]
  exact ⟨_, rfl⟩

theorem clearRefs_eq (h : Reached T a.memory) :
    onMemory clearRefs a = .ok ⟨⟩ { a with memory := a.memory.swept } := by
  rw [onMemory, zoom, h.clearRefs_eq]

theorem renewRefs_eq (h : Reached T a.memory) :
    renewRefs T a = recallPointers T a.inits.entries { a with memory := a.memory.swept } :=
  (bind_of_ok (clearRefs_eq h)).trans rfl

theorem aimed_swept (h : Reached T a.memory) (ha : a.Aimed) :
    ({ a with memory := a.memory.swept } : Analysis).Aimed :=
  (((minds_onMemory minds_clearRefs).ends a ha (.refl _)).value _ _ (clearRefs_eq h)).1

/-- The target of an initialiser is looked up.  Nothing but the layout changes. -/
theorem initTarget_ends (ha : a.Aimed) (init : Node) :
    Ends (initTarget T init) a
      (fun target a' => a'.Aimed ∧ Grows a.memory a'.memory ∧ a'.memory.OwnsTarget target ∧
        SameRest a a' ∧ SameRefs a.memory a'.memory) fun _ _ => True := by
  refine ⟨fun target a' hrun => ?_, fun _ _ _ => trivial⟩
  obtain ⟨ha', hg, howns⟩ := ((minds_initTarget T init).ends a ha (.refl _)).value _ _ hrun
  have hrest := ((Keeps.bind .get fun _ => keeps_onMemory _).ends a (.refl a)).value _ _ hrun
  have hrefs := ((laying_sameRefs a.memory).initialTarget (T := T) a.pointers init).ends a.memory
    ⟨rfl, fun _ _ => .rfl⟩
  exact ⟨ha', hg, howns, hrest, hrefs.value _ _ (onMemory_value hrun)⟩

/-- A global pointer is recorded at what its initialiser means, and nothing else is. -/
theorem recallPointer_ends (ha : a.Aimed) (name : String) (init : Node) :
    Ends (recallPointer T name init) a
      (fun _ a' => a'.Aimed ∧ SameRest a a' ∧ ∃ target a₁, initTarget T init a = .ok target a₁ ∧
        Grows a.memory a₁.memory ∧ Grows a₁.memory a'.memory ∧ ∀ c q, a'.memory.RefAt c q ↔
        a.memory.RefAt c q ∨ q = name ∧ target = some (c : Int)) fun _ _ => True := by
  refine Ends.bind ⟨fun target a₁ htarget => ?_, fun _ _ _ => trivial⟩
  obtain ⟨ha₁, hg₁, howns, hrest, hrefs⟩ := (initTarget_ends ha init).value _ _ htarget
  cases target with
  | none =>
    exact Ends.pure ⟨ha₁, hrest, none, a₁, htarget, hg₁, .refl _, fun c q => by
      simp [hrefs.refAt c q]⟩
  | some c =>
    obtain ⟨n, rfl, b, hb⟩ := (howns c rfl).exists_nat
    refine ⟨fun _ a₂ hrun => ?_, fun _ _ _ => trivial⟩
    obtain ⟨ha₂, hg₂, _⟩ :=
      ((minds_onMemory (minds_addRef (howns _ rfl) name)).ends a₁ ha₁ (.refl _)).value _ _ hrun
    have hrest₂ := ((keeps_onMemory _).ends a₁ hrest).value _ _ hrun
    refine ⟨ha₂, hrest₂, _, a₁, htarget, hg₁, hg₂, fun c q => ?_⟩
    have hadd := (addRef_eq ha₁.memory.linked hb name).symm.trans (onMemory_value hrun)
    injection hadd with _ hmemory
    rw [← hmemory, refAt_insert hb, hrefs.refAt c q, or_comm, and_comm, Option.some_inj,
      Int.natCast_inj, eq_comm (a := c)]

/-- The step in which an initialiser is looked up again, in a row of such steps, finds the block. -/
def Recalled (T : TypeTable) (inits : List (String × Node)) (a : Analysis) (q : String) (c : Nat) :
    Prop :=
  ∃ init a₁ a₂ a₃, StepIn (fun e => recallPointer T e.1 e.2) (q, init) a₁ a₂ inits a ∧
    initTarget T init a₁ = .ok (some (c : Int)) a₃

/-- Recorded afterwards is what was recorded before, and what the initialisers lead to. -/
theorem recallPointers_refAt :
    ∀ (inits : List (String × Node)) {a : Analysis}, a.Aimed →
      Ends (recallPointers T inits) a
        (fun _ a' => ∀ c q, a'.memory.RefAt c q ↔ a.memory.RefAt c q ∨ Recalled T inits a q c)
        fun _ _ => True
  | [], _, _ => Ends.pure fun c q => by
    refine ⟨.inl, fun h => h.resolve_right ?_⟩
    rintro ⟨_, _, _, _, hstep, _⟩
    exact absurd hstep.mem List.not_mem_nil
  | (name, init) :: inits, a, ha => by
    refine Ends.bind ⟨fun _ a₁ hrun => ?_, fun _ _ _ => trivial⟩
    obtain ⟨ha₁, _, target, a₂, htarget, _, _, hrefs⟩ :=
      (recallPointer_ends ha name init).value _ _ hrun
    refine (recallPointers_refAt inits ha₁).mono ?_ fun _ _ _ => trivial
    intro _ a' hrest c q
    rw [hrest c q, hrefs c q, or_assoc]
    refine or_congr_right ⟨?_, ?_⟩
    · rintro (⟨rfl, rfl⟩ | ⟨init', a₃, a₄, a₅, hstep, hc⟩)
      · exact ⟨init, a, a₁, a₂, .here hrun, htarget⟩
      · exact ⟨init', a₃, a₄, a₅, .later hrun hstep, hc⟩
    · rintro ⟨init', a₃, a₄, a₅, hstep, hc⟩
      cases hstep with
      | here _ =>
        cases htarget.symm.trans hc
        exact .inl ⟨rfl, rfl⟩
      | later h hstep =>
        cases hrun.symm.trans h
        exact .inr ⟨init', a₃, a₄, a₅, hstep, hc⟩

end Analysis

namespace Project

open Analysis

variable {fs : Files} {path : String} {p : Project}

theorem Reached.memory (h : Reached fs path p) : Memory.Reached p.types p.analysis.memory :=
  h.closed (Memory.closed_reached _) .empty

/-- After any calls every block with pointers counts as changed, so that forgetting the pointers of
those blocks empties all blocks.  The analysis of a function begins with that, and then the record
holds the global initialisers and nothing else. -/
theorem refs_before_body {T : TypeTable} {m : Memory} (hm : Memory.Reached T m)
    (hp : Reached fs path p) (id : Nat) :
    (∀ a b, m.block? a = some b → b.pointers ≠ {} → a ∈ m.dirty) ∧
      Memory.clearRefs m = .ok ⟨⟩ m.swept ∧
      (∀ a b, m.swept.block? a = some b → b.pointers = {}) ∧
      (∃ body, Analysis.analyse p.types id = renewRefs p.types >>= fun _ => body) ∧
      ∀ a', renewRefs p.types p.analysis = .ok ⟨⟩ a' → ∀ c q, a'.memory.RefAt c q ↔
        Recalled p.types p.analysis.inits.entries
          { p.analysis with memory := p.analysis.memory.swept } q c := by
  refine ⟨fun a b hb hne => ?_, hm.clearRefs_eq, fun _ _ => Memory.pointers_swept,
    exists_renewRefs _ id, fun a' hrun c q => ?_⟩
  · by_contra hclean
    exact hne (NameSet.eq_empty fun q hq => hclean (hm.tracked a q ⟨b, hb, hq⟩))
  · rw [renewRefs_eq hp.memory] at hrun
    rw [(recallPointers_refAt _ (aimed_swept hp.memory hp.aimed.analysis)).value _ _ hrun c q]
    refine or_iff_right ?_
    rintro ⟨b, hb, hq⟩
    rw [Memory.pointers_swept hb] at hq
    cases hq

open Walk in
/-- The declaration of a pointer to `x`. -/
def aimedAtX (name : String) : Node :=
  declaredWith .varDecl name "int *" .pointer [leading "&" (named "x")]

open Walk in
/-- A file with the scalars `x` and `y`, a pointer `g` to `x`, and a function `f(int *p)` with the
body `int *q = &x; q = &y; p = q; g = p;`. -/
def moves : Files := fileOf
  [intVar "x", intVar "y", aimedAtX "g",
    definedAs "f" [declarationOf .paramDecl "p" "int *" .pointer, aimedAtX "q",
      between "=" (named "q") (leading "&" (named "y")), between "=" (named "p") (named "q"),
      between "=" (named "g") (named "p")]]

theorem refs_before_body_moves : ∃ p a', Reached moves "p" p ∧
    -- the body has left its pointers at the second block
    (p.analysis.memory.block? 2).map Block.pointers = some ⟨["<f>p", "<f>q", "g"]⟩ ∧
    Memory.clearRefs p.analysis.memory = .ok ⟨⟩ p.analysis.memory.swept ∧
    renewRefs p.types p.analysis = .ok ⟨⟩ a' ∧
    (∀ c q, a'.memory.RefAt c q ↔ Recalled p.types p.analysis.inits.entries
      { p.analysis with memory := p.analysis.memory.swept } q c) ∧
    Recalled p.types p.analysis.inits.entries
      { p.analysis with memory := p.analysis.memory.swept } "g" 1 := by
  have hrun : ((after? (prepare moves (moves.absolute "p") {})).bind fun p₀ =>
      (after? (analyse 0 p₀)).bind fun p => (after? (renewRefs p.types p.analysis)).map fun a' =>
        ((p.analysis.memory.block? 2).map Block.pointers,
          (a'.memory.block? 1).map Block.pointers)) =
      some (some ⟨["<f>p", "<f>q", "g"]⟩, some ⟨["g"]⟩) := by decide +kernel
  obtain ⟨p₀, hread, h⟩ := ok_of_bind hrun
  obtain ⟨p, hanalyse, h⟩ := ok_of_bind h
  obtain ⟨a', hrenew, h⟩ := ok_of_map h
  obtain ⟨hleft, hrefs⟩ := Prod.mk.inj h
  have hp : Reached moves "p" p := .analysed (.read hread) hanalyse
  obtain ⟨_, hclear, _, _, hrecalled⟩ := refs_before_body hp.memory hp 0
  obtain ⟨b, hb, hpointers⟩ := Option.map_eq_some_iff.mp hrefs
  refine ⟨p, a', hp, hleft, hclear, hrenew, hrecalled a' hrenew, ?_⟩
  exact (hrecalled a' hrenew 1 "g").mp ⟨b, hb, by rw [hpointers]; decide⟩

end Project

end Footprint
