import Footprint.Proofs.Addresses.Calls
import Footprint.Proofs.Call.Members
import Footprint.Proofs.Memory.Growths

/-!
# The names in records have addresses

The record of a function names what it reads and writes.  A call looks these
names up again in the memory of the caller, so it matters that they can be
found.

Names are noted from blocks, and every block is found by its name.  So in every
state of a run a recorded name has an address, unless it stands for
something under a parameter of the function itself, as the names of configured
functions do (`Recorded`).
-/

namespace Footprint

open Memory

namespace Memory

variable {α β : Type} {T : TypeTable} {J : Memory → Prop} {m₀ m m' : Memory}

/-- What every addition to a linked memory keeps, the calls of a run keep. -/
theorem closed_of_growth {P : Slot → Prop} (hT : Admits T P False)
    (hlinked : ∀ m, J m → Linked none m)
    (hJ : ∀ m m', Growth T P m m' → J m → J m') : Closed T J := by
  intro m m' call hrun hf hleads hm
  have helements : call.Elements fun s => s.IsElement ∧ P s := by
    cases call with
    | growArray | paramToArray => exact hrun.elim
    | _ => trivial
  have hadded := Call.growths hT (hlinked m hm) hf helements hleads
  clear hleads
  induction hadded with
  | refl => exact hm
  | tail _ hgrowth ih => exact hJ _ _ hgrowth ih

theorem closed_listed (T : TypeTable) : Closed T Listed :=
  closed_of_growth (admits_all T) (fun _ hm => hm.linked) fun _ _ hgrowth hm => hgrowth.listed hm

theorem closed_named (T : TypeTable) (n : String) :
    Closed T fun m => Linked none m ∧ (m.address? n).isSome :=
  closed_of_growth (J := fun m => Linked none m ∧ (m.address? n).isSome) (admits_all T)
    (fun _ hm => hm.1) fun _ _ hgrowth hm =>
      ⟨(hgrowth.after hm.1).linked, hgrowth.address?_isSome hm.1 hm.2⟩

end Memory

/-- A recorded name has an address, or belongs to the function itself. -/
def Function.Recorded (f : Function) (m : Memory) : Prop :=
  ∀ use n, n ∈ f.names use →
    Text.starts (ownerStart f.name.plain) n = true ∨ (m.address? n).isSome

/-! ## Names that steps note -/

namespace Walk

variable {s : Scope} {P : String → Prop} {w w' : Walk}

/-- The records of functions gain only names with the property. -/
structure Gains (P : String → Prop) (w w' : Walk) : Prop where
  size : w'.functions.size = w.functions.size
  record : ∀ (id : Nat) (f' : Function), w'.functions[id]? = some f' →
    ∃ f, w.functions[id]? = some f ∧ f'.name = f.name ∧
      ∀ use n, n ∈ f'.names use → n ∈ f.names use ∨ P n

theorem Gains.refl (P : String → Prop) (w : Walk) : Gains P w w :=
  ⟨rfl, fun _ f' hf' => ⟨f', hf', rfl, fun _ _ hn => .inl hn⟩⟩

theorem gains_ofRecords : OfRecords (Gains P w) where
  memory _ _ h := ⟨h.size, h.record⟩
  pointers _ _ h := ⟨h.size, h.record⟩
  written _ _ h := ⟨h.size, h.record⟩

variable {g : Function → Function}

theorem gains_changeRoot
    (hg : ∀ f, (g f).name = f.name ∧ ∀ use n, n ∈ (g f).names use → n ∈ f.names use ∨ P n) :
    Keeps (Gains P w) (changeRoot s g) := by
  refine .modify fun w₁ h => ⟨(Array.size_modify ..).trans h.size, fun id f₂ hf₂ => ?_⟩
  rw [Array.getElem?_modify] at hf₂
  split at hf₂
  · obtain ⟨f₁, hf₁, rfl⟩ := Option.map_eq_some_iff.mp hf₂
    obtain ⟨f, hf, hname, hnames⟩ := h.record id f₁ hf₁
    refine ⟨f, hf, (hg f₁).1.trans hname, fun use n hn => ?_⟩
    rcases (hg f₁).2 use n hn with hn | hP
    · exact hnames use n hn
    · exact .inr hP
  · exact h.record id f₂ hf₂

theorem gains_changeRoot_same
    (hg : ∀ f, (g f).name = f.name ∧ ∀ use, (g f).names use = f.names use) :
    Keeps (Gains P w) (changeRoot s g) :=
  gains_changeRoot fun f => ⟨(hg f).1, fun use _ hn => .inl ((hg f).2 use ▸ hn)⟩

theorem gains_noteName {name : String} (hP : P name) (use : Use) :
    Keeps (Gains P w) (noteName s use name) := by
  have hname : ∀ f : Function, (f.note use name).name = f.name := by
    intro f
    cases use with
    | read => rfl
    | write => rfl
  refine gains_changeRoot (g := fun f => f.note use name) fun f => ⟨hname f, fun other n hn => ?_⟩
  rw [Function.names_note] at hn
  split at hn
  · rcases NameSet.mem_insert.mp hn with rfl | hn
    · exact .inr hP
    · exact .inl hn
  · exact .inl hn

theorem gains_share (name : String) : Keeps (Gains P w) (share s name) := by
  refine keeps_share_of name fun g hg => gains_changeRoot_same fun f => ?_
  obtain ⟨shared, he⟩ := hg f
  rw [he]
  exact ⟨rfl, fun use => names_shared f shared⟩

theorem gains_noteEnd (name : String) (target : Option Int) :
    Keeps (Gains P w) (Analysis.noteEnd s name target) :=
  keeps_noteEnd_of (gains_ofRecords.moves s).address (gains_ofRecords.moves s).look
    (fun _ => gains_changeRoot_same fun _ => ⟨rfl, fun use => by cases use <;> rfl⟩) name target

/-- What is noted of an address is the name of its block. -/
theorem gains_at {α : Type} (hl : Memory.Linked none w.memory) {a : Int} (ha : w.memory.Owns a)
    {f : Option (VarId × Variable) → WalkM α}
    (hf : ∀ id v, (∃ c, w.memory.nameAt? c = some v.name) → Keeps (Gains P w) (f (some (id, v)))) :
    Ends (variableAt a >>= f) w (fun _ => Gains P w) fun _ => Gains P w := by
  obtain ⟨c, rfl, b, hb⟩ := ha.exists_nat
  refine Ends.bind_ok (onMemory_ok (Memory.variableAt_ok hl hb)) ?_
  exact (hf _ _ ⟨c, by rw [Memory.nameAt?, hb]; rfl⟩).ends w (.refl P w)

theorem Step.gains (h : Step s w w') (hl : Linked none w.memory) :
    Gains (fun n => ∃ a, w.memory.nameAt? a = some n) w w' := by
  generalize hP : (fun n => ∃ a, w.memory.nameAt? a = some n) = P
  have hnamed : ∀ n, (∃ a, w.memory.nameAt? a = some n) → P n := fun n hn => hP ▸ hn
  have hw := Gains.refl P w
  have ofRecords : OfRecords (Gains P w) := gains_ofRecords
  cases h with
  | addressOf h => exact ((ofRecords.onMemory _).ends w hw).leads h
  | variableAt _ h => exact ((ofRecords.onMemory _).ends w hw).leads h
  | @mark use a ha h =>
    refine (gains_at hl ha fun id v hv => ?_).leads h
    dsimp only
    split
    · exact .pure _
    · have hnote := gains_noteName (s := s) (w := w) (hnamed _ hv)
      cases use with
      | read =>
        refine .bind .get fun w₁ => ?_
        split
        · exact .pure _
        · exact .bind (ofRecords.onMemory _) fun _ => hnote _
      | write =>
        exact .bind (ofRecords.onMemory _) fun _ => .bind (hnote _) fun _ =>
          .modify fun w₁ hw₁ => ofRecords.written _ w₁ hw₁
  | @markItself use a ha h =>
    refine (gains_at hl ha fun id v hv => ?_).leads h
    exact .bind (ofRecords.onMemory _) fun _ => gains_noteName (hnamed _ hv) use
  | share h => exact ((gains_share _).ends w hw).leads h
  | setTarget _ h => exact (((ofRecords.moves s).setTarget _ _).ends w hw).leads h
  | dropRef _ h => exact (((ofRecords.moves s).dropRef _ _).ends w hw).leads h
  | noteRef _ h => exact (((ofRecords.moves s).noteRef _ _).ends w hw).leads h
  | remember _ h => exact (((ofRecords.moves s).remember _ _).ends w hw).leads h
  | declareLocal h => exact ((ofRecords.declareLocal _).ends w hw).leads h
  | forgetEnds h =>
    have hforget : Keeps (Gains P w) (changeRoot s fun f => { f with pointerEnds := {} }) :=
      gains_changeRoot_same fun f => ⟨rfl, fun use => by cases use <;> rfl⟩
    exact (hforget.ends w hw).leads h
  | noteEnd _ h => exact ((gains_noteEnd _ _).ends w hw).leads h

/-- Every block is found by its name, and so is every recorded name. -/
structure Recorded (w : Walk) : Prop where
  listed : w.memory.Listed
  functions : ∀ f ∈ w.functions, f.Recorded w.memory

theorem Step.recorded (h : Step s w w') (hw : w.Recorded) : w'.Recorded := by
  have hstays : ∀ n, (w.memory.address? n).isSome → (w'.memory.address? n).isSome := fun n hn =>
    (h.closed (closed_named s.types n) ⟨hw.listed.linked, hn⟩).2
  refine ⟨h.closed (closed_listed s.types) hw.listed, fun f' hf' use n hn => ?_⟩
  obtain ⟨k, hk⟩ := Array.getElem?_of_mem hf'
  obtain ⟨f, hf, hname, hnames⟩ := (h.gains hw.listed.linked).record k f' hk
  rcases hnames use n hn with hold | ⟨a, ha⟩
  · rw [hname]
    exact (hw.functions f (Array.mem_of_getElem? hf) use n hold).imp_right (hstays n)
  · exact .inr (hstays n (hw.listed.named a n ha))

theorem Steps.recorded (h : Steps s w w') (hw : w.Recorded) : w'.Recorded := by
  induction h with
  | refl => exact hw
  | tail _ hstep ih => exact hstep.recorded ih

theorem Steps.size (h : Steps s w w') (hw : w.Recorded) :
    w'.functions.size = w.functions.size := by
  induction h with
  | refl => rfl
  | tail hsteps hstep ih =>
    exact (hstep.gains (Steps.recorded hsteps hw).listed.linked).size.trans ih

end Walk

/-! ## Projects -/

/-- A flagged name is that of what a pointer argument with the flag points to. -/
theorem Config.mem_flagged {T : TypeTable} {function : String} {flag : Argument → Bool}
    {args : List Argument} {n : String} : n ∈ flagged T function flag args ↔
      ∃ a ∈ args, T.isPointer a.type = true ∧ flag a = true ∧
        n = ownedName function a.name.plain ++ pointeeEnding := by
  rw [flagged, NameSet.ofList, CallGraph.mem_foldl_insert]
  simp only [List.mem_map, List.mem_filter, Bool.and_eq_true]
  constructor
  · rintro (⟨a, ⟨ha, hpointer, hflag⟩, rfl⟩ | hn)
    · exact ⟨a, ha, hpointer, hflag, rfl⟩
    · cases hn
  · rintro ⟨a, ha, hpointer, hflag, rfl⟩
    exact .inl ⟨a, ⟨ha, hpointer, hflag⟩, rfl⟩

namespace Project

variable {fs : Files} {path : String} {p : Project}

/-- Before they are analysed, functions name only what is under their own parameters. -/
theorem ofFunctions_ownNames (project : String) : OfFunctions fs project fun p =>
    ∀ f ∈ p.analysis.functions, ∀ use n, n ∈ f.names use →
      Text.starts (ownerStart f.name.plain) n = true where
  rest hf _ hp := by rwa [hf]
  defined _ _ _ _ := by
    refine .modify fun p hp f hf => ?_
    rcases Array.mem_push.mp hf with hf | rfl
    · exact hp f hf
    · intro use n hn
      cases use with
      | read => cases hn
      | write => cases hn
  configured {name _} _ hl T _ args _ _ := by
    refine .modify fun p hp f hf => ?_
    rcases Array.mem_push.mp hf with hf | rfl
    · exact hp f hf
    · intro use n hn
      dsimp only
      rw [plain_of_ofJson? hl]
      have hflagged : ∃ a ∈ args, n = ownedName name.plain a.name.plain ++ pointeeEnding := by
        cases use with
        | read =>
          obtain ⟨a, ha, _, _, hn⟩ := Config.mem_flagged.mp hn
          exact ⟨a, ha, hn⟩
        | write =>
          obtain ⟨a, ha, _, _, hn⟩ := Config.mem_flagged.mp hn
          exact ⟨a, ha, hn⟩
      obtain ⟨a, _, rfl⟩ := hflagged
      exact Text.starts_iff.mpr ⟨a.name.plain ++ pointeeEnding, String.append_assoc⟩

theorem Reached.listed (h : Reached fs path p) : p.analysis.memory.Listed :=
  h.closed (closed_listed _) listed_empty

/-- When a body starts, recorded names have addresses if they had before. -/
theorem recorded_of_enters {id : Nat} {s : Scope} {w : Walk}
    (h : Analysis.Enters p.types id p.analysis s w) (ha : p.analysis.Aimed)
    (hlisted : p.analysis.memory.Listed)
    (hf : ∀ f ∈ p.analysis.functions, f.Recorded p.analysis.memory) : w.Recorded := by
  refine ⟨h.closed (closed_listed _) ha hlisted, fun f hmem use n hn => ?_⟩
  obtain ⟨_, a₄, _, _, hrest, _, rfl, _⟩ := h.rest
  have hfunctions : a₄.functions = p.analysis.functions := by rw [hrest]
  refine (hf f (hfunctions ▸ hmem) use n hn).imp_right fun hsome => ?_
  exact (h.closed (closed_named _ n) ha ⟨hlisted.linked, hsome⟩).2

/-- In every project that is reached the recorded names have addresses. -/
theorem Reached.recorded (h : Reached fs path p) :
    ∀ f ∈ p.analysis.functions, f.Recorded p.analysis.memory := by
  induction h with
  | read h =>
    have hread := ((ofFunctions_ownNames _).prepare (by simp)).value _ _ h
    exact fun f hf use n hn => .inl (hread.1 f hf use n hn)
  | @analysed p p' id hp ha ih =>
    obtain ⟨hrun, _⟩ := analyse_value ha
    have haimed := hp.aimed.analysis
    cases hf : p.analysis.functions[id]? with
    | none =>
      have hstays : ∀ n, (p.analysis.memory.address? n).isSome →
          (p'.analysis.memory.address? n).isSome := fun n hn =>
        (Analysis.analyse_closed (closed_named _ n) haimed ⟨hp.listed.linked, hn⟩ hrun).2
      obtain ⟨a₁, hclear, hrecall⟩ := Analysis.analyse_unknown hf hrun
      rw [Analysis.recalled_functions hclear hrecall]
      exact fun f hf use n hn => (ih f hf use n hn).imp_right (hstays n)
    | some f =>
      obtain ⟨s, w, henters⟩ := Analysis.exists_enters hf hrun
      obtain ⟨w', hsteps, hleft⟩ := henters.steps haimed hrun
      have hrecorded := hsteps.recorded (recorded_of_enters henters haimed hp.listed ih)
      rw [hleft.functions, hleft.memory]
      exact hrecorded.functions

/-- In every state of a body the recorded names have addresses. -/
theorem Reached.recorded_steps (h : Reached fs path p) {id : Nat} {s : Scope} {w₀ w : Walk}
    (henters : Analysis.Enters p.types id p.analysis s w₀) (hsteps : Walk.Steps s w₀ w) :
    w.Recorded :=
  hsteps.recorded (recorded_of_enters henters h.aimed.analysis h.listed h.recorded)

end Project

end Footprint
