import Footprint.Proofs.Call.Members

/-!
# What the arguments of a call add to the caller

The arguments of a call are not walked like other expressions.  They are only
searched for reads.  So an assignment, a count up or down, or a call inside an
argument adds nothing to the writes of the caller, while the same expression as
a statement would.

The writes that a call adds are therefore exactly those that are carried over
from the called function.  An argument is evaluated in full if all that it would
write is among them, in particular if it is *quiet*: no node of it assigns or
counts, or calls a function that writes.
-/

namespace Footprint.Walk

/-! ## Steps without writes -/

/-- The writes in the records of all functions. -/
def recordedWrites (w : Walk) : Array NameSet := w.functions.map Function.writes

theorem noted_write_eq (s : Scope) (w : Walk) :
    noted s .write w = (w.recordedWrites[s.root]?).getD {} := by
  rw [noted, recordedWrites, Array.getElem?_map]
  rfl

section Silent

variable {s : Scope} {W : Array NameSet}

theorem ofRecords_recordedWrites : OfRecords fun w => w.recordedWrites = W where
  memory _ _ h := h
  pointers _ _ h := h
  written _ _ h := h

theorem keeps_changeRoot_writes {g : Function → Function} (hg : ∀ f, (g f).writes = f.writes) :
    Keeps (fun w => w.recordedWrites = W) (changeRoot s g) :=
  .modify fun w hw => (map_modify hg w.functions s.root).trans hw

theorem recordedWrites_marks : Marks s .read fun w => w.recordedWrites = W where
  address _ := ofRecords_recordedWrites.onMemory _
  look _ := ofRecords_recordedWrites.onMemory _
  share name := by
    refine keeps_share_of name fun g hg => keeps_changeRoot_writes fun f => ?_
    obtain ⟨shared, he⟩ := hg f
    rw [he]
  mark := ofRecords_recordedWrites.mark fun _ => keeps_changeRoot_writes fun _ => rfl
  markItself := ofRecords_recordedWrites.markItself fun _ => keeps_changeRoot_writes fun _ => rfl

variable {N : NameSet}

theorem ofNotes_written : OfNotes fun w => w.written = N where
  memory _ _ h := h
  pointers _ _ h := h

/-- What is noted as written stays as it is where only reads are noted. -/
theorem written_marks : Marks s .read fun w => w.written = N where
  address _ := ofNotes_written.onMemory _
  look _ := ofNotes_written.onMemory _
  share name := keeps_share_of name fun _ _ => .modify fun _ h => h
  mark a := by
    refine .bind (ofNotes_written.onMemory _) fun v => ?_
    cases v with
    | none => exact .pure _
    | some v =>
      dsimp only
      split
      · exact .pure _
      · refine .bind .get fun w => ?_
        split
        · exact .pure _
        · exact .bind (ofNotes_written.onMemory _) fun _ => .modify fun _ h => h
  markItself := ofNotes_written.markItself fun _ => .modify fun _ h => h

end Silent

/-! ## The arguments and the called function -/

/-- The steps of the arguments of a call. -/
def readArguments (s : Scope) (i : NodeInfo) (cs : List Node) : WalkM Unit :=
  (stepsAt (readEach s cs) (Node.argumentPlaces i cs.length)).forM id

theorem Marks.readArguments {s : Scope} {I : Walk → Prop} (h : Marks s .read I) (i : NodeInfo)
    (cs : List Node) : Keeps I (readArguments s i cs) :=
  h.readEach cs _

variable {calls : CallIndex} {i : NodeInfo}

theorem walk_call {s : Scope} {cs : List Node} {d : Option Node} (hi : i.kind = .call) :
    walk calls s (.mk i cs d) = readArguments s i cs >>=
      fun _ => mergeCall calls s (Node.calleeName i) (Node.mk i cs d).arguments := by
  rw [walk.eq_def]
  simp only [hi]
  rfl

/-- The function that a call means. -/
def calleeOf? (calls : CallIndex) (functions : Array Function) (i : NodeInfo) : Option Function :=
  if (Node.calleeName i).isEmpty then none
  else (calls.get? (.text (Node.calleeName i))).bind fun id => functions[id]?

theorem mem_of_calleeOf? {functions : Array Function}
    {f : Function} (h : calleeOf? calls functions i = some f) : f ∈ functions := by
  unfold calleeOf? at h
  split at h
  · cases h
  · obtain ⟨id, _, hf⟩ := Option.bind_eq_some_iff.mp h
    exact Array.mem_of_getElem? hf

theorem mergeCall_eq (calls : CallIndex) (s : Scope) (i : NodeInfo) (arguments : List Node)
    (w : Walk) :
    mergeCall calls s (Node.calleeName i) arguments w =
      (calleeOf? calls w.functions i).elim (pure ⟨⟩) (mergeCallee s · arguments) w := by
  unfold mergeCall calleeOf?
  split
  · rfl
  · cases calls.get? (.text (Node.calleeName i)) with
    | none => rfl
    | some id =>
      refine (bind_of_ok rfl).trans ?_
      rw [Option.bind_some]
      cases w.functions[id]? with
      | none => rfl
      | some callee => rfl

theorem writes_calleeOf? (calls : CallIndex) (i : NodeInfo) {w w' : Walk}
    (h : w'.recordedWrites = w.recordedWrites) :
    (calleeOf? calls w'.functions i).map Function.writes =
      (calleeOf? calls w.functions i).map Function.writes := by
  have hat : ∀ id : Nat, (w'.functions[id]?).map Function.writes =
      (w.functions[id]?).map Function.writes := by
    intro id
    have hid := congrArg (fun W : Array NameSet => W[id]?) h
    simpa only [recordedWrites, Array.getElem?_map] using hid
  unfold calleeOf?
  split
  · rfl
  · cases calls.get? (.text (Node.calleeName i)) with
    | none => rfl
    | some id => exact hat id

/-! ## Quiet expressions -/

/-- The node does not assign or count, and calls no function that writes. -/
structure Quiet (calls : CallIndex) (functions : Array Function) (i : NodeInfo) : Prop where
  call : i.kind = .call →
    (calleeOf? calls functions i).all (fun f => f.writes.isEmpty) = true
  count : i.kind = .unary → Node.operatorOf i ∉ ["++", "--"]
  assign : i.kind ∈ [NodeKind.binary, .compoundAssign] →
    Node.operatorOf i ∉ "=" :: Node.compoundOperators

instance (calls : CallIndex) (functions : Array Function) :
    DecidablePred (Quiet calls functions) := fun _ =>
  decidable_of_iff (_ ∧ _ ∧ _)
    ⟨fun h => ⟨h.1, h.2.1, h.2.2⟩, fun h => ⟨h.call, h.count, h.assign⟩⟩

section Quiet

variable {calls : CallIndex} {s : Scope} {w : Walk}

/-- The walk over a quiet expression notes reads only. -/
theorem quiet_still : (still (Quiet calls w.functions) fun w' =>
    w'.recordedWrites = w.recordedWrites).Sound calls s (· = .read) where
  toMarks := recordedWrites_marks.still
  reads := rfl
  assigns hi ha := by
    rcases ha with ⟨hk, hop⟩ | ⟨hk, hop⟩
    · exact absurd hop (hi.count hk)
    · exact absurd hop (hi.assign hk)
  callee {w' i id f} hi hk hn hid hw hf := by
    refine ⟨⟨fun _ _ _ => trivial, fun _ _ => ⟨trivial, fun _ _ => trivial⟩⟩, fun hne => ?_⟩
    have hwrites := writes_calleeOf? calls i hw
    rw [show calleeOf? calls w'.functions i = some f by
      rw [calleeOf?, if_neg hn, hid, Option.bind_some, hf]] at hwrites
    obtain ⟨callee, hc, he⟩ := Option.map_eq_some_iff.mp hwrites.symm
    have hempty := hi.call hk
    rw [hc] at hempty
    exact absurd (List.isEmpty_iff.mp (he ▸ hempty)) hne
  repoint _ _ := passes_still ((ofRecords_recordedWrites.moves _).repoint _ _) fun _ _ => trivial
  declared _ _ _ := passes_still (keeps_declared (ofRecords_recordedWrites.declareLocal _)
    fun _ => (ofRecords_recordedWrites.moves s).setTarget _ _) fun _ _ _ => trivial

theorem recordedWrites_walk (n : Node) (hn : n.Every (Quiet calls w.functions)) :
    Keeps (fun w' => w'.recordedWrites = w.recordedWrites) (walk calls s n) :=
  keeps_of_still (quiet_still.walk {} n hn)

end Quiet

/-! ## The writes of a call -/

section Call

variable {calls : CallIndex} {s : Scope} {w w' : Walk}

/-- In the merge of a callee that starts in `w`, the caller is in `u` before a write of the callee
to a name is carried over, and in `v` after it. -/
def CarriesWrite (s : Scope) (callee : Function) (arguments : List Node) (w : Walk)
    (name : String) (u v : Walk) : Prop :=
  ∃ actuals w₁ w₂, actualsOf s callee [] (callee.params.zip arguments) w = .ok actuals w₁ ∧
    callee.reads.toList.forM (mergeUse s callee actuals .read) w₁ = .ok ⟨⟩ w₂ ∧
    StepIn (mergeUse s callee actuals .write) name u v callee.writes.toList w₂

/-- Some write of the called function is carried over to the name. -/
def Carried (calls : CallIndex) (s : Scope) (n : Node) (w : Walk) (x : String) : Prop :=
  ∃ callee name u v, calleeOf? calls w.functions n.info = some callee ∧
    CarriesWrite s callee n.arguments w name u v ∧
    x ∉ noted s .write u ∧ x ∈ noted s .write v

/-- The walk over the expression alone would add the name to the writes. -/
def Adds (calls : CallIndex) (s : Scope) (e : Node) (w : Walk) (x : String) : Prop :=
  ∃ w', Leads (walk calls s e) w w' ∧ x ∉ noted s .write w ∧ x ∈ noted s .write w'

/-- All that the walk over the expression alone would write is written in the end. -/
def Evaluated (calls : CallIndex) (s : Scope) (e : Node) (w w' : Walk) : Prop :=
  ∀ x, Adds calls s e w x → x ∈ noted s .write w'

theorem noted_write_of_eq (h : w'.recordedWrites = w.recordedWrites) :
    noted s .write w' = noted s .write w := by
  rw [noted_write_eq, noted_write_eq, h]

theorem mem_writes_mergeCallee {callee : Function} {arguments : List Node}
    (hcall : mergeCallee s callee arguments w = .ok ⟨⟩ w') (x : String) :
    x ∈ noted s .write w' ↔ x ∈ noted s .write w ∨
      ∃ name u v, CarriesWrite s callee arguments w name u v ∧
        x ∉ noted s .write u ∧ x ∈ noted s .write v := by
  obtain ⟨actuals, w₁, hactuals, hrest⟩ := exists_of_bind hcall
  obtain ⟨_, w₂, hreads, hrest⟩ := exists_of_bind hrest
  obtain ⟨_, w₃, hwrites, hpointers⟩ := exists_of_bind hrest
  -- only the loop over the writes of the callee notes writes
  have h₁ : noted s .write w₁ = noted s .write w :=
    noted_write_of_eq
      ((recordedWrites_marks.actualsOf callee [] _).ends w rfl |>.value _ _ hactuals)
  have h₂ : noted s .write w₂ = noted s .write w₁ :=
    noted_write_of_eq ((Keeps.forM fun name _ =>
      recordedWrites_marks.mergeUse callee actuals name).ends w₁ rfl |>.value _ _ hreads)
  have h₃ : noted s .write w' = noted s .write w₃ :=
    ((noted_mergePointers (P := (· = noted s .write w₃)) callee actuals _).ends w₃ rfl).value _ _
      hpointers
  have hstays : ∀ name, Keeps (fun w => x ∈ noted s .write w)
      (mergeUse s callee actuals .write name) :=
    fun name => ((mem_noted_looks x).marks .write).mergeUse callee actuals name
  rw [h₃, ← h₁, ← h₂]
  constructor
  · intro hx
    by_cases hx₂ : x ∈ noted s .write w₂
    · exact .inl hx₂
    · obtain ⟨name, u, v, hstep, hu, hv⟩ :=
        exists_stepIn (P := fun w => x ∈ noted s .write w) hwrites hx₂ hx
      exact .inr ⟨name, u, v, ⟨actuals, w₁, w₂, hactuals, hreads, hstep⟩, hu, hv⟩
  · rintro (hx | ⟨name, u, v, ⟨actuals', w₁', w₂', hactuals', hreads', hstep⟩, _, hv⟩)
    · exact ((Keeps.forM fun name _ => hstays name).ends w₂ hx).value _ _ hwrites
    · cases hactuals.symm.trans hactuals'
      cases hreads.symm.trans hreads'
      exact hstep.holds hstays hv hwrites

theorem mem_writes_mergeCall {n : Node}
    (hcall : mergeCall calls s (Node.calleeName n.info) n.arguments w = .ok ⟨⟩ w') (x : String) :
    x ∈ noted s .write w' ↔ x ∈ noted s .write w ∨ Carried calls s n w x := by
  rw [mergeCall_eq] at hcall
  unfold Carried
  cases hc : calleeOf? calls w.functions n.info with
  | none =>
    rw [hc] at hcall
    cases hcall
    simp
  | some callee =>
    rw [hc] at hcall
    rw [mem_writes_mergeCallee hcall x]
    simp

theorem not_adds_of_quiet {e : Node} (he : e.Every (Quiet calls w.functions)) (x : String) :
    ¬ Adds calls s e w x := by
  rintro ⟨w₁, hleads, hx, hx₁⟩
  have hsame := ((recordedWrites_walk (s := s) e he).ends w rfl).leads hleads
  rw [noted_write_of_eq hsame] at hx₁
  exact hx hx₁

/-- The arguments of a call write nothing: after the call the function writes what it wrote before,
and what is carried over from the writes of the called function.  An argument is evaluated in full
exactly if all it would write is carried over, so a quiet argument is. -/
theorem mem_writes_walk_call {i : NodeInfo} {cs : List Node} {d : Option Node}
    (hi : i.kind = .call) (hwalk : walk calls s (.mk i cs d) w = .ok ⟨⟩ w') :
    ∃ w₁, readArguments s i cs w = .ok ⟨⟩ w₁ ∧
      w₁.recordedWrites = w.recordedWrites ∧ w₁.written = w.written ∧
      (∀ x, x ∈ noted s .write w' ↔
        x ∈ noted s .write w ∨ Carried calls s (.mk i cs d) w₁ x) ∧
      ∀ e ∈ (Node.mk i cs d).arguments,
        (Evaluated calls s e w w' ↔
          ∀ x, Adds calls s e w x → Carried calls s (.mk i cs d) w₁ x) ∧
        (e.Every (Quiet calls w.functions) → Evaluated calls s e w w') := by
  rw [walk_call hi] at hwalk
  obtain ⟨_, w₁, hread, hmerge⟩ := exists_of_bind hwalk
  have hsame : w₁.recordedWrites = w.recordedWrites :=
    ((recordedWrites_marks.readArguments i cs).ends w rfl).value _ _ hread
  have hwritten : w₁.written = w.written :=
    ((written_marks.readArguments i cs).ends w rfl).value _ _ hread
  have hmem : ∀ x, x ∈ noted s .write w' ↔
      x ∈ noted s .write w ∨ Carried calls s (.mk i cs d) w₁ x := by
    intro x
    rw [← noted_write_of_eq hsame]
    exact mem_writes_mergeCall hmerge x
  refine ⟨w₁, hread, hsame, hwritten, hmem, fun e _ => ⟨?_, ?_⟩⟩
  · constructor
    · intro hall x hx
      rcases (hmem x).mp (hall x hx) with hold | hcarried
      · obtain ⟨_, _, hnew, _⟩ := hx
        exact absurd hold hnew
      · exact hcarried
    · exact fun hall x hx => (hmem x).mpr (.inr (hall x hx))
  · exact fun he x hx => absurd hx (not_adds_of_quiet he x)

end Call

/-! ## An argument that counts up -/

/-- The tree of `x++`. -/
def countUpX : Node := following "++" (named "x")

/-- The node of the call in `g(x++)`. -/
def callOfG : NodeInfo := { kind := .call, spelling := "g", arguments := some [0] }

/-- A file with `int x, y`, a function `g` that writes its parameter to `y`, and a function `f` that
calls `g(x++)`. -/
def countingCall : Files := fileOf
  [intVar "x", intVar "y",
    definedAs "g" [declarationOf .paramDecl "a" "int" .other, between "=" (named "y") (named "a")],
    definedAs "f" [.mk callOfG [countUpX] none]]

/-- The scope of `f` in a project. -/
def scopeOfF (p : Project) : Scope := ⟨p.types, 1, "f"⟩

/-- The project once `g` is analysed. -/
def countingRun? : Option Project :=
  (after? (Project.prepare countingCall (countingCall.absolute "p") {})).bind fun p =>
    after? (Project.analyse 0 p)

theorem mem_writes_walk_call_counts :
    ∃ p w' w₁, countingRun? = some p ∧
      walk p.analysis.index (scopeOfF p) (.mk callOfG [countUpX] none) (entering p.analysis) =
        .ok ⟨⟩ w' ∧
      readArguments (scopeOfF p) callOfG [countUpX] (entering p.analysis) = .ok ⟨⟩ w₁ ∧
      (∀ x, x ∈ noted (scopeOfF p) .write w' ↔
        x ∈ noted (scopeOfF p) .write (entering p.analysis) ∨
        Carried p.analysis.index (scopeOfF p) (.mk callOfG [countUpX] none) w₁ x) ∧
      (Evaluated p.analysis.index (scopeOfF p) countUpX (entering p.analysis) w' ↔
        ∀ x, Adds p.analysis.index (scopeOfF p) countUpX (entering p.analysis) x →
          Carried p.analysis.index (scopeOfF p) (.mk callOfG [countUpX] none) w₁ x) := by
  have hrun : (countingRun?.map fun p => value? (walk p.analysis.index (scopeOfF p)
      (.mk callOfG [countUpX] none) (entering p.analysis))) = some (some ⟨⟩) := by decide +kernel
  obtain ⟨p, hp, hends⟩ := Option.map_eq_some_iff.mp hrun
  obtain ⟨w', hwalk⟩ := exists_of_value? hends
  obtain ⟨w₁, hread, _, _, hmem, hargs⟩ := mem_writes_walk_call rfl hwalk
  exact ⟨p, w', w₁, hp, hwalk, hread, hmem, (hargs countUpX (List.mem_singleton.mpr rfl)).1⟩

/-- What an argument writes is lost: `x++` alone writes `x`, and the call `g(x++)` writes `y`
only. -/
theorem argument_write_lost :
    ∃ p₀ p w w', Project.prepare countingCall (countingCall.absolute "p") {} = .ok ⟨⟩ p₀ ∧
      Project.analyse 0 p₀ = .ok ⟨⟩ p ∧
      walk p.analysis.index (scopeOfF p) countUpX (entering p.analysis) = .ok ⟨⟩ w ∧
      walk p.analysis.index (scopeOfF p) (.mk callOfG [countUpX] none) (entering p.analysis) =
        .ok ⟨⟩ w' ∧
      noted (scopeOfF p) .write (entering p.analysis) = {} ∧
      noted (scopeOfF p) .write w = ⟨["x"]⟩ ∧ noted (scopeOfF p) .write w' = ⟨["y"]⟩ := by
  have hrun : ((after? (Project.prepare countingCall (countingCall.absolute "p") {})).bind fun p₀ =>
      (after? (Project.analyse 0 p₀)).bind fun p =>
        (after? (walk p.analysis.index (scopeOfF p) countUpX (entering p.analysis))).bind fun w =>
          (after? (walk p.analysis.index (scopeOfF p) (.mk callOfG [countUpX] none)
              (entering p.analysis))).map fun w' =>
            (noted (scopeOfF p) .write (entering p.analysis), noted (scopeOfF p) .write w,
              noted (scopeOfF p) .write w')) =
      some ({}, ⟨["x"]⟩, ⟨["y"]⟩) := by decide +kernel
  obtain ⟨p₀, hprepare, hr⟩ := ok_of_bind hrun
  obtain ⟨p, hfirst, hr⟩ := ok_of_bind hr
  obtain ⟨w, halone, hr⟩ := ok_of_bind hr
  obtain ⟨w', hcall, hvalues⟩ := ok_of_map hr
  simp only [Prod.mk.injEq] at hvalues
  obtain ⟨hbefore, hw, hw'⟩ := hvalues
  exact ⟨p₀, p, w, w', hprepare, hfirst, halone,
    hcall, hbefore, hw, hw'⟩

end Footprint.Walk
