import Footprint.Proofs.Frame
import Footprint.Proofs.Trees

/-!
# Which uses of a callee reach the caller

A call adds to what the caller reads and writes what it carries over from the
uses of the callee, one name after the other.  A pointer parameter `p` of a
callee `g` points to a block `<g>p__pointee` at the start.  Uses of this block
and of its elements are carried over to what the caller passed for `p`.  A use
of a member of it, such as `<g>p__pointee.a`, is taken for the use of a part of
a parameter called `p__pointee`, and without such a parameter it is dropped.

So a name is used by the caller after the call exactly if it was used before, or
the use of some other name is carried over to it.
-/

namespace Footprint

/-- The names that a function uses. -/
def Function.names (f : Function) : Walk.Use → NameSet
  | .read => f.reads
  | .write => f.writes

/-- The function with a use of a name noted. -/
def Function.note (f : Function) (use : Walk.Use) (name : String) : Function :=
  match use with
  | .read => { f with reads := f.reads.insert name }
  | .write => { f with writes := f.writes.insert name }

theorem Function.names_note (f : Function) (use other : Walk.Use) (name : String) :
    (f.note other name).names use =
      if other = use then (f.names use).insert name else f.names use := by
  cases use <;> cases other <;> rfl

/-- The uses of a function in the order in which a call carries them over. -/
def Function.uses (f : Function) : List (Walk.Use × String) :=
  f.reads.toList.map (Prod.mk .read) ++ f.writes.toList.map (Prod.mk .write)

/-- The name is that of a member of what a parameter points to at the start, with no index right
after it.  No parameter has a name that starts so. -/
structure Function.PointeeMember (g : Function) (name : String) : Prop where
  member : ∃ p m, name = ownerStart g.name.plain ++ (p ++ Memory.pointeeEnding ++ "." ++ m) ∧
    '.' ∉ p.toList ∧ '[' ∉ p.toList ∧ ∀ t, .text (p ++ Memory.pointeeEnding ++ t) ∉ g.params
  noIndex : Text.has (Memory.pointeeEnding ++ "[") name = false

namespace Walk

/-! ## Dropped uses -/

/-- Every actual is one of a parameter. -/
def Actual.Among (params : List Label) (actuals : List Actual) : Prop :=
  ∀ x ∈ actuals, x.param ∈ params

variable {params : List Label} {x : Actual} {callee : Function} {actuals : List Actual} {q : String}

theorem among_putActual (hx : x.param ∈ params) :
    ∀ {actuals : List Actual}, Actual.Among params actuals →
      Actual.Among params (putActual x actuals)
  | [], _ => by
    intro y hy
    rw [List.mem_singleton.mp hy]
    exact hx
  | y :: rest, h => by
    have hy := h y (List.mem_cons_self ..)
    have hrest : Actual.Among params rest := fun z hz => h z (List.mem_cons_of_mem y hz)
    unfold putActual
    split
    · intro z hz
      rcases List.mem_cons.mp hz with rfl | hz
      · exact hy
      · exact hrest z hz
    · intro z hz
      rcases List.mem_cons.mp hz with rfl | hz
      · exact hy
      · exact among_putActual hx hrest z hz

theorem actualOf?_param {s : Scope} {param : Label} {argument : Node} {w w' : Walk}
    (h : actualOf? s callee param argument w = .ok (some x) w') : x.param = param := by
  unfold actualOf? at h
  cases hvar : callee.vars.get? (ownedName callee.name.plain param.plain) with
  | none =>
    rw [hvar] at h
    cases h
  | some id =>
    rw [hvar] at h
    obtain ⟨w₁, _, _, h⟩ := exists_of_bind h
    dsimp only at h
    split at h
    · obtain ⟨_, _, _, h⟩ := exists_of_bind h
      obtain ⟨_, _, _, h⟩ := exists_of_bind h
      obtain ⟨_, _, _, h⟩ := exists_of_bind h
      cases h
      rfl
    · cases h

theorem among_actualsOf {s : Scope} :
    ∀ {args : List (Label × Node)} {found actuals : List Actual} {w w' : Walk},
      (∀ e ∈ args, e.1 ∈ params) → Actual.Among params found →
      actualsOf s callee found args w = .ok actuals w' → Actual.Among params actuals
  | [], _, _, _, _, _, hfound, h => by
    cases h
    exact hfound
  | (param, argument) :: rest, found, actuals, w, w', hargs, hfound, h => by
    have hrest : ∀ e ∈ rest, e.1 ∈ params := fun e he => hargs e (List.mem_cons_of_mem _ he)
    obtain ⟨x, w₁, hx, h⟩ := exists_of_bind h
    cases x with
    | none => exact among_actualsOf hrest hfound h
    | some x =>
      have hparam : x.param ∈ params := actualOf?_param hx ▸ hargs _ (List.mem_cons_self ..)
      exact among_actualsOf hrest (among_putActual hparam hfound) h

theorem actualFor?_eq_none (h : Actual.Among params actuals) {param : String}
    (hparam : .text param ∉ params) : actualFor? actuals param = none := by
  refine List.find?_eq_none.mpr fun x hx he => hparam ?_
  rw [← of_decide_eq_true he]
  exact h x hx

theorem before_member (hdot : '.' ∉ q.toList) (hbracket : '[' ∉ q.toList)
    (m : String) : Text.before "." (Text.before "[" (q ++ "." ++ m)) = q := by
  have hq : '[' ∉ (q ++ ".").toList := by simp [String.toList_append, hbracket]
  obtain ⟨m', hm⟩ := Text.exists_before (p := "[") rfl hq m
  rw [hm]
  exact Text.before_append rfl hdot m'

/-- The parameter that a name with the ending of a pointee is taken to belong to. -/
theorem exists_withoutSuffix_member {start m : String}
    (h : Text.ends Memory.pointeeEnding (start ++ (q ++ "." ++ m)) = true) :
    ∃ t, Text.withoutSuffix Memory.pointeeEnding (q ++ "." ++ m) = q ++ t := by
  have hends : Text.ends Memory.pointeeEnding (start ++ q ++ "." ++ m) = true := by
    simpa only [String.append_assoc] using h
  obtain ⟨m', rfl⟩ := Text.exists_of_ends (p := ".") rfl (by decide) hends
  refine ⟨"." ++ m', ?_⟩
  rw [← String.append_assoc, Text.withoutSuffix_append, String.append_assoc]

/-- Nothing is carried over from the use of a member of what a parameter points to. -/
theorem mergeUse_pointeeMember (s : Scope)
    (h : Actual.Among callee.params actuals) (use : Use) {name : String}
    (hname : callee.PointeeMember name) : mergeUse s callee actuals use name = pure ⟨⟩ := by
  obtain ⟨⟨p, m, rfl, hdot, hbracket, hparams⟩, hindex⟩ := hname
  unfold mergeUse
  dsimp only
  rw [if_pos (Text.starts_iff.mpr ⟨_, rfl⟩), if_neg (by simp [hindex]), Text.dropFirst_append]
  split
  · next hends =>
    obtain ⟨t, ht⟩ := exists_withoutSuffix_member hends
    rw [ht, actualFor?_eq_none h (hparams t)]
    rfl
  · have hparam : .text (p ++ Memory.pointeeEnding) ∉ callee.params := by simpa using hparams ""
    have hq : ∀ c, c ∉ p.toList → c ∉ Memory.pointeeEnding.toList →
        c ∉ (p ++ Memory.pointeeEnding).toList := by
      intro c hp he
      simp [String.toList_append, hp, he]
    unfold mergePart
    dsimp only
    rw [before_member (hq '.' hdot (by decide)) (hq '[' hbracket (by decide)),
      actualFor?_eq_none h hparam]
    rfl

/-! ## The record of the caller -/

/-- The names that the walked function uses so far. -/
def noted (s : Scope) (use : Use) (w : Walk) : NameSet :=
  ((w.functions[s.root]?).map fun f => f.names use).getD {}

section Noted

variable {s : Scope} {use : Use}

theorem noted_modify (w : Walk) (g : Function → Function) :
    noted s use { w with functions := w.functions.modify s.root g } =
      ((w.functions[s.root]?).map fun f => (g f).names use).getD {} := by
  rw [noted, Array.getElem?_modify, if_pos rfl]
  cases w.functions[s.root]? with
  | none => rfl
  | some f => rfl

theorem noted_modify_same (w : Walk) {g : Function → Function}
    (hg : ∀ f, (g f).names use = f.names use) :
    noted s use { w with functions := w.functions.modify s.root g } = noted s use w := by
  rw [noted_modify]
  simp only [hg, noted]

theorem names_shared (f : Function) (shared : NameSet) :
    { f with shared }.names use = f.names use := by
  cases use with
  | read => rfl
  | write => rfl

variable {P : NameSet → Prop}

theorem ofRecords_noted : OfRecords fun w => P (noted s use w) where
  memory _ _ h := h
  pointers _ _ h := h
  written _ _ h := h

theorem noted_finds : Finds s fun w => P (noted s use w) where
  address _ := ofRecords_noted.onMemory _
  look _ := ofRecords_noted.onMemory _
  share name := by
    refine keeps_share_of name fun g hg => .modify fun w hw => ?_
    have hnames : ∀ f, (g f).names use = f.names use := by
      intro f
      obtain ⟨shared, he⟩ := hg f
      rw [he, names_shared]
    rw [noted_modify_same w hnames]
    exact hw

variable {other : Use}

theorem keeps_noteName_of (name : String)
    (h : ∀ f : Function, P (f.names use) → P ((f.note other name).names use)) :
    Keeps (fun w => P (noted s use w)) (noteName s other name) := by
  refine .modify fun w hw => ?_
  show P (noted s use { w with functions := w.functions.modify s.root fun f => f.note other name })
  rw [noted_modify]
  unfold noted at hw
  cases hf : w.functions[s.root]? with
  | none =>
    rw [hf] at hw
    exact hw
  | some f =>
    rw [hf] at hw
    exact h f hw

theorem noted_mergePointers (callee : Function) (actuals : List Actual)
    (entries : List (Nat × Option Int)) :
    Keeps (fun w => P (noted s use w))
      (entries.forM fun e => mergePointer s callee actuals e.1 e.2) :=
  .forM fun e _ => noted_finds.mergePointer (ofRecords_noted.moves s).repoint callee actuals e.1 e.2

theorem noted_marks (hne : other ≠ use) : Marks s other fun w => P (noted s use w) := by
  have hnote : ∀ name, Keeps (fun w => P (noted s use w)) (noteName s other name) :=
    fun name => keeps_noteName_of name fun f hf => by rwa [Function.names_note, if_neg hne]
  exact ⟨noted_finds, ofRecords_noted.mark hnote, ofRecords_noted.markItself hnote⟩

/-- A name that is noted stays. -/
theorem mem_noted_looks (n : String) : Looks s fun w => n ∈ noted s use w := by
  have hnote : ∀ other name, Keeps (fun w => n ∈ noted s use w) (noteName s other name) := by
    refine fun other name => keeps_noteName_of (P := fun N => n ∈ N) name fun f hf => ?_
    rw [Function.names_note]
    split
    · exact NameSet.mem_insert.mpr (.inr hf)
    · exact hf
  have hrecords : OfRecords fun w => n ∈ noted s use w := ofRecords_noted (P := fun N => n ∈ N)
  exact ⟨noted_finds (P := fun N => n ∈ N), fun other => hrecords.mark (hnote other),
    fun other => hrecords.markItself (hnote other)⟩

end Noted

/-! ## The call -/

/-- Carries over one use of the callee. -/
def mergeOne (s : Scope) (callee : Function) (actuals : List Actual) (e : Use × String) :
    WalkM Unit :=
  mergeUse s callee actuals e.1 e.2

theorem mergeCallee_eq (s : Scope) (callee : Function) (arguments : List Node) :
    mergeCallee s callee arguments =
      actualsOf s callee [] (callee.params.zip arguments) >>= fun actuals =>
        callee.uses.forM (mergeOne s callee actuals) >>= fun _ =>
          callee.pointerEnds.entries.forM fun e => mergePointer s callee actuals e.1 e.2 := by
  unfold mergeCallee Function.uses
  simp only [List.forM_eq_forM, List.forM_append, List.forM_map, bind_assoc]
  rfl

/-- In a call that starts in `w`, the caller is in `w₁` before the use of a name by the callee is
carried over, and in `w₂` after it. -/
def Merging (s : Scope) (callee : Function) (arguments : List Node) (w : Walk) (use : Use)
    (name : String) (w₁ w₂ : Walk) : Prop :=
  ∃ actuals w₀, actualsOf s callee [] (callee.params.zip arguments) w = .ok actuals w₀ ∧
    StepIn (mergeOne s callee actuals) (use, name) w₁ w₂ callee.uses w₀

/-- After a call the caller uses the names that it used before, and those that the use of a name by
the callee is carried over to, which is no member of what a parameter points to. -/
theorem mem_noted_mergeCallee {s : Scope} {callee : Function} {arguments : List Node}
    {w w' : Walk} (hcall : mergeCallee s callee arguments w = .ok ⟨⟩ w') (use : Use) (n : String) :
    n ∈ noted s use w' ↔ n ∈ noted s use w ∨
      ∃ name w₁ w₂, Merging s callee arguments w use name w₁ w₂ ∧ ¬ callee.PointeeMember name ∧
        n ∉ noted s use w₁ ∧ n ∈ noted s use w₂ := by
  rw [mergeCallee_eq] at hcall
  obtain ⟨actuals, w₀, hactuals, hrest⟩ := exists_of_bind hcall
  obtain ⟨_, w₃, huses, hpointers⟩ := exists_of_bind hrest
  have hamong : Actual.Among callee.params actuals :=
    among_actualsOf (fun _ he => (List.of_mem_zip he).1) (fun _ hx => absurd hx List.not_mem_nil)
      hactuals
  -- the names are noted in the loop over the uses, and only there
  have hbefore : noted s use w₀ = noted s use w :=
    ((noted_finds (P := (· = noted s use w)) |>.actualsOf callee [] _).ends w rfl).value _ _
      hactuals
  have hafter : noted s use w' = noted s use w₃ :=
    ((noted_mergePointers (P := (· = noted s use w₃)) callee actuals _).ends w₃ rfl).value
      _ _ hpointers
  have hstays : ∀ e, Keeps (fun w => n ∈ noted s use w) (mergeOne s callee actuals e) :=
    fun e => ((mem_noted_looks n).marks e.1).mergeUse callee actuals e.2
  rw [hafter, ← hbefore]
  constructor
  · intro hn
    by_cases hn₀ : n ∈ noted s use w₀
    · exact .inl hn₀
    · obtain ⟨⟨other, name⟩, w₁, w₂, hstep, hn₁, hn₂⟩ :=
        exists_stepIn (P := fun w => n ∈ noted s use w) huses hn₀ hn
      have hrun := hstep.run
      have huse : other = use := by
        by_contra hne
        have hkeep := (noted_marks (s := s) (P := fun N => n ∉ N) hne).mergeUse callee actuals name
        exact (hkeep.ends w₁ hn₁).value _ _ hrun hn₂
      subst huse
      refine .inr ⟨name, w₁, w₂, ⟨actuals, w₀, hactuals, hstep⟩, fun hmember => ?_, hn₁, hn₂⟩
      rw [mergeOne, mergeUse_pointeeMember s hamong other hmember] at hrun
      cases hrun
      exact hn₁ hn₂
  · rintro (hn | ⟨name, w₁, w₂, ⟨actuals', w₀', hactuals', hstep⟩, _, _, hn₂⟩)
    · exact ((Keeps.forM fun e _ => hstays e).ends w₀ hn).value _ _ huses
    · cases hactuals.symm.trans hactuals'
      exact hstep.holds hstays hn₂ huses

/-! ## A member behind a parameter -/

/-- The tree of `&x`. -/
def addressOfX : Node := leading "&" (named "x")

/-- A file with a struct `x`, a function `g` that writes `p->y` for its parameter `p`, and a
function `f` that calls `g(&x)`. -/
def memberCall : Files := fileOf
  [structOf "pair" [declarationOf .fieldDecl "y" "int" .other],
    declarationOf .varDecl "x" "struct pair" .record,
    definedAs "g" [declarationOf .paramDecl "p" "struct pair *" .pointer,
      between "=" (.mk { kind := .memberRef, spelling := "y", tokens := ["p", "->", "y"] }
        [named "p"] none) one],
    definedAs "f" [.mk { kind := .call, spelling := "g", arguments := some [0] } [addressOfX] none]]

/-- A function without parameters when its walk starts. -/
def entering (a : Analysis) : Walk where
  memory := a.memory
  functions := a.functions
  pointers := a.pointers

/-- The project once `g` is analysed, with the record of `g`. -/
def memberRun? : Option (Project × Function) :=
  (after? (Project.prepare memberCall (memberCall.absolute "p") {})).bind fun p₀ =>
    (after? (Project.analyse 0 p₀)).bind fun p => (p.record? 0).map fun g => (p, g)

theorem mem_noted_mergeCallee_pair :
    ∃ p g w', memberRun? = some (p, g) ∧ g.PointeeMember "<g>p__pointee.y" ∧
      mergeCallee ⟨p.types, 1, "f"⟩ g [addressOfX] (entering p.analysis) = .ok ⟨⟩ w' ∧
      ∀ use n, n ∈ noted ⟨p.types, 1, "f"⟩ use w' ↔
        n ∈ noted ⟨p.types, 1, "f"⟩ use (entering p.analysis) ∨
        ∃ name w₁ w₂,
          Merging ⟨p.types, 1, "f"⟩ g [addressOfX] (entering p.analysis) use name w₁ w₂ ∧
          ¬ g.PointeeMember name ∧ n ∉ noted ⟨p.types, 1, "f"⟩ use w₁ ∧
          n ∈ noted ⟨p.types, 1, "f"⟩ use w₂ := by
  have hrun : (memberRun?.map fun (p, g) => (g.name, g.params,
      value? (mergeCallee ⟨p.types, 1, "f"⟩ g [addressOfX] (entering p.analysis)))) =
      some (.text "g", [.text "p"], some ⟨⟩) := by decide +kernel
  obtain ⟨⟨p, g⟩, hr, hvalues⟩ := Option.map_eq_some_iff.mp hrun
  simp only [Prod.mk.injEq] at hvalues
  obtain ⟨hname, hparams, hends⟩ := hvalues
  obtain ⟨w', hcall⟩ := exists_of_value? hends
  have hmember : g.PointeeMember "<g>p__pointee.y" := by
    refine ⟨⟨"p", "y", ?_, by decide, by decide, fun t ht => ?_⟩, by decide +kernel⟩
    · rw [hname]
      decide +kernel
    · rw [hparams, List.mem_singleton] at ht
      have hlength := congrArg String.length (Label.text.inj ht)
      rw [String.length_append, String.length_append] at hlength
      have hending : Memory.pointeeEnding.length = 9 := by decide
      have hp : "p".length = 1 := by decide
      omega
  exact ⟨p, g, w', hr, hmember, hcall, mem_noted_mergeCallee hcall⟩

/-- A write to a member behind a parameter does not reach what the caller passed. -/
theorem member_write_lost :
    ∃ p₀ p p' g f, Project.prepare memberCall (memberCall.absolute "p") {} = .ok ⟨⟩ p₀ ∧
      Project.analyse 0 p₀ = .ok ⟨⟩ p ∧ Project.analyse 1 p = .ok ⟨⟩ p' ∧
      p'.record? 0 = some g ∧ p'.record? 1 = some f ∧
      p'.analysis.memory.address? "x.y" = some 2 ∧
      "<g>p__pointee.y" ∈ g.writes ∧ "x.y" ∉ f.writes := by
  have hrun : ((after? (Project.prepare memberCall (memberCall.absolute "p") {})).bind fun p₀ =>
      (after? (Project.analyse 0 p₀)).bind fun p =>
        (after? (Project.analyse 1 p)).bind fun p' =>
          (p'.record? 0).bind fun g => (p'.record? 1).map fun f =>
            (p'.analysis.memory.address? "x.y", g.writes, f.writes)) =
      some (some 2, ⟨["<g>p__pointee.y"]⟩, {}) := by decide +kernel
  obtain ⟨p₀, hprepare, hr⟩ := ok_of_bind hrun
  obtain ⟨p, hfirst, hr⟩ := ok_of_bind hr
  obtain ⟨p', hsecond, hr⟩ := ok_of_bind hr
  obtain ⟨g, hg, hr⟩ := Option.bind_eq_some_iff.mp hr
  obtain ⟨f, hf, hvalues⟩ := Option.map_eq_some_iff.mp hr
  simp only [Prod.mk.injEq] at hvalues
  obtain ⟨haddress, hwrites, hlost⟩ := hvalues
  refine ⟨p₀, p, p', g, f, hprepare, hfirst, hsecond, hg, hf,
    haddress, ?_, ?_⟩
  · rw [hwrites]
    decide
  · rw [hlost]
    decide

end Walk

end Footprint
