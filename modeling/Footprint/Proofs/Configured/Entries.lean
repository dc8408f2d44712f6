import Footprint.Proofs.Definitions
import Footprint.Proofs.Schedule

/-!
# The entries that are taken

The configuration entries of a project are read one after the other.  An entry
is well formed if it has a name and its arguments are a list (`claimed?`).  One
that is not adds nothing, and neither does one for a function that is known.  So
of the entries for a name the first well-formed one is taken, and none if the
name is defined (`taken`).  The function gets what it says (`Described`).

Arguments and pointers without a name are passed over, but a name that is a list
and a type that is a number are not: such an entry ends the reading.  `Readable`
says that there is none.
-/

namespace Footprint

open Label Config

namespace Config

/-! ## What an entry says -/

/-- The text under a key, if there is one. -/
def textUnder? (j : Json) (key : String) : Option String :=
  match fieldOrNull j key with
  | .str s => some s
  | _ => none

variable {j : Json}

theorem textUnder?_eq_some {key s : String} :
    textUnder? j key = some s ↔ fieldOrNull j key = .str s := by
  unfold textUnder?
  cases fieldOrNull j key with
  | str t => simp
  | _ => simp

/-- The configuration entries of a project, with their files. -/
def entries (fs : Files) (project : String) : List (String × Json) :=
  (configFiles fs project).flatMap fun file => (entriesOf fs file.2).map fun j => (file.1, j)

theorem load_eq (fs : Files) (project : String) :
    load fs project = (entries fs project).forM fun e => addEntry e.1 e.2 := by
  unfold load entries
  induction configFiles fs project with
  | nil => rfl
  | cons file files ih =>
    simp only [List.forM_eq_forM, List.forM_cons, List.flatMap_cons, List.forM_append,
      List.forM_map] at ih ⊢
    rw [ih]

/-- The name of the function that a well-formed entry is for. -/
def claimed? (j : Json) : Option Label :=
  if (fieldOrNull j "function_name").truthy && (itemsUnder? j "arguments").isSome then
    ofJson? (fieldOrNull j "function_name")
  else none

/-- The name of a well-formed entry is a scalar. -/
def Keyed (j : Json) : Prop :=
  (fieldOrNull j "function_name").truthy → (itemsUnder? j "arguments").isSome →
    (ofJson? (fieldOrNull j "function_name")).isSome

/-- Where an argument of the entry has a name and a type, these are a scalar and a text, and so are
the names of the pointers that it sets. -/
structure Readable (j : Json) : Prop where
  arguments : ∀ items ∈ itemsUnder? j "arguments", ∀ a ∈ items, ∀ name type,
    argumentFields a = some (name, type) → (ofJson? name).isSome ∧ ∃ s, type = .str s
  pointers : ∀ items ∈ itemsUnder? j "ptr_init", ∀ i ∈ items, isObject i →
    (fieldOrNull i "name").truthy → (ofJson? (fieldOrNull i "name")).isSome

/-- The arguments of an entry and the pointers that it sets. -/
def readEntry (T : TypeTable) (function : String) (j : Json) :
    Except Fault (List Argument × List (String × Option String)) := do
  let args ← namedArguments ((itemsUnder? j "arguments").getD []) >>= typedArguments
  let inits ← pointerInits? T (Table.ofList (args.map fun a => (a.name.key, a.type))) function j
  return (args, inits)

theorem readEntry_eq_ok {T : TypeTable} {function : String} {args : List Argument}
    {inits : List (String × Option String)} : readEntry T function j = .ok (args, inits) ↔
      (namedArguments ((itemsUnder? j "arguments").getD []) >>= typedArguments) = .ok args ∧
      pointerInits? T (Table.ofList (args.map fun a => (a.name.key, a.type))) function j =
        .ok inits := by
  unfold readEntry
  cases namedArguments ((itemsUnder? j "arguments").getD []) >>= typedArguments with
  | error e => simp [bind, Except.bind]
  | ok found =>
    cases hinits :
      pointerInits? T (Table.ofList (found.map fun a => (a.name.key, a.type))) function j
    all_goals simp [bind, Except.bind, pure, Except.pure, hinits]
    all_goals grind

theorem exists_typedArguments_iff (items : List Json) :
    (∃ args, (namedArguments items >>= typedArguments) = .ok args) ↔ ∀ a ∈ items, ∀ name type,
      argumentFields a = some (name, type) → (ofJson? name).isSome ∧ ∃ s, type = .str s := by
  induction items with
  | nil => exact ⟨fun _ _ h => absurd h List.not_mem_nil, fun _ => ⟨[], rfl⟩⟩
  | cons j items ih =>
    rw [List.forall_mem_cons, ← ih]
    cases hfields : argumentFields j with
    | none => simp [namedArguments, hfields]
    | some field =>
      obtain ⟨name, type⟩ := field
      cases hname : ofJson? name with
      | none => simp [namedArguments, hfields, hname, bind, Except.bind]
      | some label =>
        cases hnamed : namedArguments items with
        | error e => simp [namedArguments, hfields, hname, hnamed, bind, Except.bind]
        | ok named =>
          have hcons : (namedArguments (j :: items) >>= typedArguments) =
              typedArguments ((label, type, j) :: named) := by
            simp [namedArguments, hfields, hname, hnamed, bind, Except.bind, pure, Except.pure]
          rw [hcons]
          cases htyped : typedArguments named
          all_goals cases type
          all_goals simp [typedArguments, hname, htyped, bind, Except.bind, pure, Except.pure]

theorem exists_pointerInits_iff (T : TypeTable) (types : ArgumentTypes) (function : String)
    (items : List Json) : (∃ inits, pointerInits T types function items = .ok inits) ↔
      ∀ i ∈ items, isObject i → (fieldOrNull i "name").truthy →
        (ofJson? (fieldOrNull i "name")).isSome := by
  induction items with
  | nil => exact ⟨fun _ _ h => absurd h List.not_mem_nil, fun _ => ⟨[], rfl⟩⟩
  | cons i items ih =>
    rw [List.forall_mem_cons, ← ih, pointerInits, pointerInit]
    cases isObject i
    · cases pointerInits T types function items <;> simp [bind, Except.bind, pure, Except.pure]
    cases (fieldOrNull i "name").truthy
    · cases pointerInits T types function items <;> simp [bind, Except.bind, pure, Except.pure]
    cases ofJson? (fieldOrNull i "name")
    · simp [bind, Except.bind]
    · cases pointerInits T types function items <;> simp [bind, Except.bind, pure, Except.pure]

/-- An entry can be read if its names and types can. -/
theorem exists_readEntry_iff {items : List Json}
    (h : itemsUnder? j "arguments" = some items) (T : TypeTable) (function : String) :
    (∃ args inits, readEntry T function j = .ok (args, inits)) ↔ Readable j := by
  have hinits (types : ArgumentTypes) : (∃ inits, pointerInits? T types function j = .ok inits) ↔
      ∀ items ∈ itemsUnder? j "ptr_init", ∀ i ∈ items, isObject i →
        (fieldOrNull i "name").truthy → (ofJson? (fieldOrNull i "name")).isSome := by
    unfold pointerInits?
    cases itemsUnder? j "ptr_init" with
    | none => simp
    | some inits => simpa using exists_pointerInits_iff T types function inits
  simp only [readEntry_eq_ok, h, Option.getD_some, exists_and_left, hinits, exists_and_right,
    exists_typedArguments_iff]
  constructor
  · rintro ⟨hargs, hptrs⟩
    exact ⟨fun items' hitems' => by cases h.symm.trans hitems'; exact hargs, hptrs⟩
  · exact fun hr => ⟨hr.arguments items h, hr.pointers⟩

/-! ## One entry -/

/-- The variable of an argument. -/
def argumentVariable (T : TypeTable) (function : String) (a : Argument) : Variable where
  name := ownedName function a.name.plain
  type := a.type
  kind := kindOf T a.type
  domain := .param
  isPointer := T.isPointer a.type

end Config

/-- The variables of the arguments are among those of the table. -/
structure Config.DeclaresArguments (T : TypeTable) (function : String) (args : List Argument)
    (vars : Table String VarId) (m : Memory) : Prop where
  declared : ∀ n id, vars.get? n = some id → ∃ a ∈ args,
    n = ownedName function a.name.plain ∧ m.vars[id]? = some (argumentVariable T function a)
  named : ∀ a ∈ args, (vars.get? (ownedName function a.name.plain)).isSome

/-- The function has what an entry of the file says. -/
structure Function.Described (T : TypeTable) (m : Memory) (e : String × Json) (f : Function) :
    Prop where
  name : claimed? e.2 = some f.name
  source : f.source = FileName.join "config" e.1
  body : f.body = none
  entry : ∃ args, readEntry T (fieldOrNull e.2 "function_name").plain e.2 =
      .ok (args, f.configured) ∧
    f.params = args.map Argument.name ∧
    f.reads = flagged T (fieldOrNull e.2 "function_name").plain
      Argument.reads args ∧
    f.writes = flagged T (fieldOrNull e.2 "function_name").plain
      Argument.writes args ∧
    DeclaresArguments T (fieldOrNull e.2 "function_name").plain args f.vars m

/-- The variables of the one memory are those of the other, where they are in it. -/
def Memory.KeepsVars (m m' : Memory) : Prop :=
  ∀ (id : VarId) v, m.vars[id]? = some v → m'.vars[id]? = some v

theorem Memory.keepsVars_push (m : Memory) (u : Variable) :
    m.KeepsVars { m with vars := m.vars.push u } := by
  intro id v h
  obtain ⟨hlt, rfl⟩ := Array.getElem?_eq_some_iff.mp h
  exact Array.getElem?_push_lt hlt

variable {T : TypeTable} {function : String} {args : List Argument} {vars : Table String VarId}
variable {m m' : Memory}

theorem Config.DeclaresArguments.mono (h : DeclaresArguments T function args vars m)
    (hm : m.KeepsVars m') : DeclaresArguments T function args vars m' := by
  refine ⟨fun n id hn => ?_, h.named⟩
  obtain ⟨a, ha, hname, hvar⟩ := h.declared n id hn
  exact ⟨a, ha, hname, hm id _ hvar⟩

/-- One more argument. -/
theorem Config.DeclaresArguments.push
    (h : DeclaresArguments T function args vars m)
    (a : Argument) :
    DeclaresArguments T function (args ++ [a])
      (vars.set (ownedName function a.name.plain) m.vars.size)
      { m with vars := m.vars.push (argumentVariable T function a) } := by
  refine ⟨fun n id hn => ?_, fun b hb => ?_⟩
  · rw [Table.get?_set] at hn
    split at hn
    · next he =>
      cases hn
      exact ⟨a, List.mem_append_right _ (List.mem_singleton_self a), he.symm,
        Array.getElem?_push_size⟩
    · obtain ⟨b, hb, hname, hvar⟩ := h.declared n id hn
      exact ⟨b, List.mem_append_left _ hb, hname, m.keepsVars_push _ id _ hvar⟩
  · rw [Table.get?_set]
    split
    · rfl
    · next hne =>
      rcases List.mem_append.mp hb with hb | hb
      · exact h.named b hb
      · cases List.mem_singleton.mp hb
        exact absurd rfl hne

namespace Project

open Config

/-- From `p` on variables were declared, and nothing else was done. -/
structure WithVars (p q : Project) : Prop where
  rest : q = { p with analysis := { p.analysis with memory := q.analysis.memory } }
  vars : p.analysis.memory.KeepsVars q.analysis.memory

variable {E : Fault → Project → Prop}

theorem declareArguments_ends (T : TypeTable) (function : String) :
    ∀ (args done : List Argument) {vars : Table String VarId} {p₀ p : Project}, WithVars p₀ p →
      DeclaresArguments T function done vars p.analysis.memory →
      Ends (declareArguments T function vars args) p (fun vars q => WithVars p₀ q ∧
        DeclaresArguments T function (done ++ args) vars q.analysis.memory) E
  | [], done, _, _, _, hp, hdone => by
    rw [List.append_nil]
    exact Ends.pure ⟨hp, hdone⟩
  | a :: args, done, vars, p₀, p, hp, hdone => by
    rw [List.append_cons]
    refine Ends.bind_ok (onMemory_declare p _) (declareArguments_ends T function args _ ?_
      (hdone.push a))
    refine ⟨?_, fun id v hv => Memory.keepsVars_push _ _ id v (hp.vars id v hv)⟩
    rw [hp.rest]
    rfl

theorem declareArguments_start (T : TypeTable) (function : String) (args : List Argument)
    (p : Project) :
    Ends (declareArguments T function {} args) p
      (fun vars q => WithVars p q ∧ DeclaresArguments T function args vars q.analysis.memory)
      E := by
  refine declareArguments_ends T function args [] ⟨rfl, fun _ _ h => h⟩
    ⟨fun _ _ h => ?_, fun _ h => ?_⟩
  · cases h
  · cases h

/-- The entry is passed over, or its function is added. -/
inductive Takes (e : String × Json) (p : Project) : Project → Prop
  | skip (h : ∀ label ∈ claimed? e.2, p.knows label.key = true) : Takes e p p
  | add {f : Function} {m : Memory} (hname : p.knows f.name.key = false)
      (hf : f.Described p.types m e) (hm : p.analysis.memory.KeepsVars m) :
      Takes e p { p with
        analysis := { p.analysis with memory := m, functions := p.analysis.functions.push f }
        configured := p.configured ++ [f.name] }

/-- Whether an entry can be added, and what that does. -/
theorem addEntry_decides (e : String × Json) (p : Project) :
    Decides (addEntry e.1 e.2) p (Keyed e.2 ∧ ∀ label ∈ claimed? e.2, p.knows label.key = false →
      Readable e.2) fun _ q => Takes e p q := by
  obtain ⟨file, j⟩ := e
  have hskip (hkeyed : Keyed j) (h : ∀ label ∈ claimed? j, p.knows label.key = true) :
      (Keyed j ∧ ∀ label ∈ claimed? j, p.knows label.key = false → Readable j) ∧
        Takes (file, j) p p :=
    ⟨⟨hkeyed, fun label hl hk => Bool.noConfusion (hk.symm.trans (h label hl))⟩, .skip h⟩
  refine Ends.bind (Ends.get ?_)
  dsimp only
  cases hitems : itemsUnder? j "arguments" with
  | none => exact Ends.pure (hskip (by simp [Keyed, hitems]) (by simp [claimed?, hitems]))
  | some items =>
    dsimp only
    cases htruthy : (fieldOrNull j "function_name").truthy with
    | false =>
      rw [if_pos (by simp)]
      exact Ends.pure (hskip (by simp [Keyed, htruthy]) (by simp [claimed?, htruthy]))
    | true =>
      have hclaimed : claimed? j = ofJson? (fieldOrNull j "function_name") := by
        simp [claimed?, htruthy, hitems]
      have hobject : isObject j = true := by
        cases j with
        | obj fields => rfl
        | _ => cases htruthy
      simp only [hobject, Bool.not_true, Bool.false_or]
      cases hlabel : ofJson? (fieldOrNull j "function_name") with
      | none =>
        have hkeyed : ¬ Keyed j := by simp [Keyed, htruthy, hitems, hlabel]
        rw [if_neg (by simp)]
        refine Ends.bind (Ends.orFault (fun args _ => ?_) fun _ _ h => hkeyed h.1)
        refine Ends.bind ((declareArguments_start _ _ args p).mono (fun _ _ _ => ?_) fun _ _ h => h)
        exact Ends.bind (Ends.orFault (fun _ _ => Ends.throw fun h => hkeyed h.1)
          fun _ _ h => hkeyed h.1)
      | some label =>
        rw [hlabel] at hclaimed
        have hkeyed : Keyed j := fun _ _ => by rw [hlabel]; rfl
        by_cases hknown : p.knows label.key = true
        · rw [if_pos (by simpa using hknown)]
          refine Ends.pure (hskip hkeyed fun l hl => ?_)
          cases hclaimed.symm.trans hl
          exact hknown
        rw [if_neg (by simpa using hknown)]
        rw [Bool.not_eq_true] at hknown
        have hread := exists_readEntry_iff hitems p.types (fieldOrNull j "function_name").plain
        simp only [readEntry_eq_ok, hitems, Option.getD_some] at hread
        refine Ends.bind (Ends.orFault (fun args hargs => ?_) fun e he h => ?_)
        · refine Ends.bind ((declareArguments_start _ _ args p).mono (fun vars q hq => ?_)
            fun _ _ h => h)
          refine Ends.bind (Ends.orFault (fun inits hinits => ?_) fun e he h => ?_)
          · refine Ends.bind_ok (addFunction_ok q _) (Ends.modify ⟨⟨hkeyed, fun _ _ _ => ?_⟩, ?_⟩)
            · exact hread.mp ⟨args, inits, hargs, hinits⟩
            · rw [hq.1.rest]
              refine .add hknown ⟨hclaimed, rfl, rfl, args, ?_, rfl, rfl, rfl, hq.2⟩ hq.1.vars
              exact readEntry_eq_ok.mpr ⟨by rw [hitems]; exact hargs, hinits⟩
          · obtain ⟨args', inits, hargs', hinits⟩ := hread.mpr (h.2 label hclaimed hknown)
            cases hargs.symm.trans hargs'
            cases he.symm.trans hinits
        · obtain ⟨args, inits, hargs, _⟩ := hread.mpr (h.2 label hclaimed hknown)
          cases he.symm.trans hargs

/-! ## All entries -/

end Project

/-- The entries that are taken: the first one for each name that is not known. -/
def Config.taken (knows : LabelKey → Bool) : List (String × Json) → List (String × Json)
  | [] => []
  | e :: es =>
    match claimed? e.2 with
    | none => taken knows es
    | some label =>
      if knows label.key then taken knows es
      else e :: taken (fun key => knows key || decide (label.key = key)) es

namespace Config

variable {knows : LabelKey → Bool} {e : String × Json} {es : List (String × Json)}

theorem taken_skip (h : ∀ label ∈ claimed? e.2, knows label.key = true) :
    taken knows (e :: es) = taken knows es := by
  cases hl : claimed? e.2 with
  | none => simp [taken, hl]
  | some label => simp [taken, hl, h label hl]

theorem taken_add {label : Label} (hl : claimed? e.2 = some label)
    (h : knows label.key = false) : taken knows (e :: es) =
      e :: taken (fun key => knows key || decide (label.key = key)) es := by
  simp [taken, hl, h]

end Config

theorem Function.Described.mono {e : String × Json} {f : Function}
    (h : f.Described T m e) (hm : m.KeepsVars m') : f.Described T m' e := by
  obtain ⟨args, hread, hparams, hreads, hwrites, hvars⟩ := h.entry
  exact ⟨h.name, h.source, h.body, args, hread, hparams, hreads, hwrites, hvars.mono hm⟩

namespace Project

open Config

variable {p : Project} {f : Function}

theorem knows_withFunction {key : LabelKey} :
    (p.withFunction f).knows key = (p.knows key || decide (f.name.key = key)) := by
  simp [knows, functions, withFunction]

/-- The functions of some entries have been added. -/
structure Loads (es : List (String × Json)) (p q : Project) : Prop where
  types : q.types = p.types
  vars : p.analysis.memory.KeepsVars q.analysis.memory
  functions : ∃ added, q.functions = p.functions ++ added ∧
    q.configured = p.configured ++ added.map Function.name ∧
    added.map (fun f => some f.name) = es.map (fun e => claimed? e.2) ∧
    ∀ f ∈ added, ∃ e ∈ es, f.Described q.types q.analysis.memory e

theorem Loads.nil (p : Project) : Loads [] p p :=
  ⟨rfl, fun _ _ h => h, [], (List.append_nil _).symm, (List.append_nil _).symm, rfl,
    fun _ h => absurd h List.not_mem_nil⟩

theorem Loads.cons {q : Project} {m : Memory} {e : String × Json}
    {es : List (String × Json)} (hf : f.Described p.types m e)
    (hm : p.analysis.memory.KeepsVars m)
    (h : Loads es { p with
      analysis := { p.analysis with memory := m, functions := p.analysis.functions.push f }
      configured := p.configured ++ [f.name] } q) : Loads (e :: es) p q := by
  obtain ⟨added, hfunctions, hconfigured, hnames, hadded⟩ := h.functions
  refine ⟨h.types, fun id v hv => h.vars id v (hm id v hv), f :: added, ?_, ?_, ?_, ?_⟩
  · rw [hfunctions, Project.functions, Array.toList_push, List.append_assoc]
    rfl
  · rw [hconfigured, List.append_assoc]
    rfl
  · rw [List.map_cons, List.map_cons, hnames, hf.name]
  · refine List.forall_mem_cons.mpr ⟨⟨e, List.mem_cons_self .., h.types ▸ hf.mono h.vars⟩, ?_⟩
    intro g hg
    obtain ⟨e', he', hdescribed⟩ := hadded g hg
    exact ⟨e', List.mem_cons_of_mem e he', hdescribed⟩

/-- Reading entries adds the functions of those that are taken. -/
theorem forM_addEntry_decides (es : List (String × Json)) (p : Project) :
    Decides (es.forM fun e => addEntry e.1 e.2) p ((∀ e ∈ es, Keyed e.2) ∧
      ∀ e ∈ Config.taken p.knows es, Readable e.2)
      fun _ q => Loads (Config.taken p.knows es) p q := by
  induction es generalizing p with
  | nil => exact Ends.pure ⟨⟨by simp, by simp [Config.taken]⟩, .nil p⟩
  | cons e es ih =>
    refine Ends.bind ((addEntry_decides e p).mono (fun _ q hq => ?_) fun _ _ h hall => h ?_)
    · obtain ⟨⟨hkeyed, hreadable⟩, htakes⟩ := hq
      cases htakes with
      | skip h =>
        rw [taken_skip h, List.forall_mem_cons]
        refine (ih p).mono (fun _ q hq => ?_) fun _ _ h hall => h ⟨hall.1.2, hall.2⟩
        exact ⟨⟨⟨hkeyed, hq.1.1⟩, hq.1.2⟩, hq.2⟩
      | @add f m hname hf hm =>
        rw [taken_add hf.name hname, List.forall_mem_cons, List.forall_mem_cons]
        have hknows : (fun key => p.knows key || decide (f.name.key = key)) =
            (withFunction { p with analysis := { p.analysis with memory := m } } f).knows :=
          funext fun key => knows_withFunction.symm
        rw [hknows]
        refine (ih _).mono (fun _ q hq => ?_) fun _ _ h hall => h ⟨hall.1.2, hall.2.2⟩
        exact ⟨⟨⟨hkeyed, hq.1.1⟩, hreadable f.name hf.name hname, hq.1.2⟩, hq.2.cons hf hm⟩
    · refine ⟨hall.1 e (List.mem_cons_self ..), fun label hl hk => hall.2 e ?_⟩
      rw [taken_add hl hk]
      exact List.mem_cons_self ..

end Project

/-! ## The first entry for each name -/

namespace Config

variable {knows : LabelKey → Bool} {e : String × Json} {es : List (String × Json)}

/-- The first entry for a name. -/
def first? (key : LabelKey) (es : List (String × Json)) : Option (String × Json) :=
  es.find? fun e => (claimed? e.2).map Label.key = some key

theorem of_first? {key : LabelKey} (h : first? key es = some e) :
    e ∈ es ∧ ∃ label, claimed? e.2 = some label ∧ label.key = key := by
  unfold first? at h
  have hkey := List.find?_some h
  exact ⟨List.mem_of_find?_eq_some h, Option.map_eq_some_iff.mp (of_decide_eq_true hkey)⟩

/-- An entry is taken if it is the first one for a name that is not known. -/
theorem mem_taken_iff : e ∈ taken knows es ↔ ∃ label,
    claimed? e.2 = some label ∧ knows label.key = false ∧ first? label.key es = some e := by
  induction es generalizing knows with
  | nil => simp [taken, first?]
  | cons e₀ es ih =>
    by_cases h : ∀ label ∈ claimed? e₀.2, knows label.key = true
    · rw [taken_skip h, ih]
      refine exists_congr fun label => and_congr_right fun _ => and_congr_right fun hknown => ?_
      rw [first?, first?, List.find?_cons_of_neg]
      intro hkey
      obtain ⟨l, hl, hkey⟩ := Option.map_eq_some_iff.mp (of_decide_eq_true hkey)
      exact Bool.noConfusion (hknown.symm.trans (hkey ▸ h l hl))
    · obtain ⟨l, hl, hknown⟩ : ∃ l, claimed? e₀.2 = some l ∧ knows l.key = false := by simpa using h
      rw [taken_add hl hknown, List.mem_cons, ih]
      constructor
      · rintro (rfl | ⟨label, hlabel, hfresh, hfirst⟩)
        · exact ⟨l, hl, hknown, List.find?_cons_of_pos (by simp [hl])⟩
        · rw [Bool.or_eq_false_iff, decide_eq_false_iff_not] at hfresh
          refine ⟨label, hlabel, hfresh.1, ?_⟩
          rw [first?, List.find?_cons_of_neg (by simpa [hl] using hfresh.2)]
          exact hfirst
      · rintro ⟨label, hlabel, hfresh, hfirst⟩
        by_cases hkey : l.key = label.key
        · rw [first?, List.find?_cons_of_pos (by simpa [hl] using hkey)] at hfirst
          exact .inl (Option.some.inj hfirst).symm
        · rw [first?, List.find?_cons_of_neg (by simpa [hl] using hkey)] at hfirst
          exact .inr ⟨label, hlabel, by simp [hfresh, hkey], hfirst⟩

/-- No two entries for one name are taken. -/
theorem nodup_taken : ((taken knows es).map fun e => claimed? e.2).Nodup := by
  induction es generalizing knows with
  | nil => exact .nil
  | cons e₀ es ih =>
    by_cases h : ∀ label ∈ claimed? e₀.2, knows label.key = true
    · rw [taken_skip h]
      exact ih
    · obtain ⟨l, hl, hknown⟩ : ∃ l, claimed? e₀.2 = some l ∧ knows l.key = false := by simpa using h
      rw [taken_add hl hknown, List.map_cons, List.nodup_cons]
      refine ⟨fun hmem => ?_, ih⟩
      obtain ⟨e, he, heq⟩ := List.mem_map.mp hmem
      obtain ⟨label, hlabel, hfresh, _⟩ := mem_taken_iff.mp he
      rw [hl, hlabel, Option.some.injEq] at heq
      simp [heq] at hfresh

/-- The name in an entry is a text, if it has one. -/
def TextNamed (j : Json) : Prop :=
  (match fieldOrNull j "function_name" with
    | .null | .str _ => true
    | _ => false) = true

instance (j : Json) : Decidable (TextNamed j) := inferInstanceAs (Decidable (_ = true))

variable {label : Label} {p : Project}

theorem TextNamed.text {j : Json} (h : TextNamed j)
    (hl : claimed? j = some label) : ∃ c, label = .text c := by
  unfold TextNamed at h
  unfold claimed? at hl
  cases hname : fieldOrNull j "function_name" with
  | str s =>
    rw [hname] at hl
    split at hl
    · cases hl
      exact ⟨s, rfl⟩
    · cases hl
  | null =>
    rw [hname] at hl
    cases hl
  | _ =>
    rw [hname] at h
    cases h

theorem TextNamed.keyed {j : Json} (h : TextNamed j) : Keyed j := by
  unfold TextNamed at h
  intro htruthy _
  cases hname : fieldOrNull j "function_name" with
  | str s => rfl
  | null =>
    rw [hname] at htruthy
    cases htruthy
  | _ =>
    rw [hname] at h
    cases h

/-- No function of the project has the name, and the entry is the first one for it. -/
structure Gives (fs : Files) (project : String) (p : Project) (c : String) (e : String × Json) :
    Prop where
  undefined : ∀ f ∈ p.functions, f.name ≠ .text c
  first : first? (.text c) (entries fs project) = some e

theorem knows_text_eq_false_iff {c : String} :
    p.knows (.text c) = false ↔ ∀ f ∈ p.functions, f.name ≠ .text c := by
  rw [Project.knows, List.any_eq_false]
  refine forall₂_congr fun f _ => not_congr ?_
  rw [decide_eq_true_iff]
  exact ⟨eq_text_of_key, fun h => h ▸ rfl⟩

theorem mem_taken_entries_iff {fs : Files} {project : String}
    (hnames : ∀ e ∈ entries fs project, TextNamed e.2) {e : String × Json} :
    e ∈ taken p.knows (entries fs project) ∧ claimed? e.2 = some label ↔
      ∃ c, label = .text c ∧ Gives fs project p c e := by
  rw [mem_taken_iff]
  constructor
  · rintro ⟨⟨l, hl, hknown, hfirst⟩, hlabel⟩
    cases hl.symm.trans hlabel
    obtain ⟨c, rfl⟩ := (hnames e (of_first? hfirst).1).text hl
    exact ⟨c, rfl, knows_text_eq_false_iff.mp hknown, hfirst⟩
  · rintro ⟨c, rfl, h⟩
    obtain ⟨_, l, hl, hkey⟩ := of_first? h.first
    obtain rfl := eq_text_of_key hkey
    exact ⟨⟨_, hl, knows_text_eq_false_iff.mpr h.undefined, h.first⟩, hl⟩

/-- An entry that is not well formed adds nothing. -/
theorem addEntry_of_malformed {e : String × Json} (hkeyed : Keyed e.2)
    (h : claimed? e.2 = none) (p : Project) : addEntry e.1 e.2 p = .ok ⟨⟩ p := by
  have hdecides := Project.addEntry_decides e p
  cases hrun : addEntry e.1 e.2 p with
  | error fault q =>
    refine absurd ⟨hkeyed, fun label hl => ?_⟩ (hdecides.fault fault q hrun)
    cases h.symm.trans hl
  | ok u q =>
    obtain ⟨_, htakes⟩ := hdecides.value u q hrun
    cases htakes with
    | skip => rfl
    | add _ hf => cases h.symm.trans hf.name

/-- When the configuration of a project is read, the functions it had stay, and one is added for
each name that has a well-formed entry and belongs to none of them.  The function has what the first
such entry says.  The reading ends if these entries can be read. -/
theorem load_first {fs : Files} {project : String} {p : Project}
    (hnames : ∀ e ∈ entries fs project, TextNamed e.2) (hp : p.configured = []) :
    ((∃ q, load fs project p = .ok ⟨⟩ q) ↔ ∀ c e, Gives fs project p c e → Readable e.2) ∧
    (∀ e ∈ entries fs project, claimed? e.2 = none → ∀ q, addEntry e.1 e.2 q = .ok ⟨⟩ q) ∧
    ∀ q, load fs project p = .ok ⟨⟩ q →
      q.configured.Nodup ∧
      (∀ label, label ∈ q.configured ↔ ∃ c, label = .text c ∧ ∃ e, Gives fs project p c e) ∧
      ∃ added, q.functions = p.functions ++ added ∧ added.map Function.name = q.configured ∧
        ∀ f ∈ added, ∃ c, f.name = .text c ∧ ∃ e, Gives fs project p c e ∧
          f.Described q.types q.analysis.memory e := by
  have hdecides := Project.forM_addEntry_decides (entries fs project) p
  rw [← load_eq] at hdecides
  have hkeyed : ∀ e ∈ entries fs project, Keyed e.2 := fun e he => (hnames e he).keyed
  refine ⟨?_, fun e he hnone => addEntry_of_malformed (hkeyed e he) hnone, fun q hq => ?_⟩
  · have hunit : (∃ q, load fs project p = .ok ⟨⟩ q) ↔ ∃ u q, load fs project p = .ok u q :=
      ⟨fun ⟨q, h⟩ => ⟨⟨⟩, q, h⟩, fun ⟨⟨⟩, q, h⟩ => ⟨q, h⟩⟩
    rw [hunit, hdecides.ok_iff, and_iff_right hkeyed]
    constructor
    · exact fun h c e hg => h e ((mem_taken_entries_iff hnames).mpr ⟨c, rfl, hg⟩).1
    · intro h e he
      obtain ⟨label, hl, _⟩ := mem_taken_iff.mp he
      obtain ⟨c, _, hg⟩ := (mem_taken_entries_iff hnames).mp ⟨he, hl⟩
      exact h c e hg
  · obtain ⟨added, hfunctions, hconfigured, hlabels, hadded⟩ :=
      (hdecides.value _ _ hq).2.functions
    rw [hp, List.nil_append] at hconfigured
    rw [← Function.comp_def some Function.name, ← List.map_map, ← hconfigured] at hlabels
    refine ⟨?_, fun label => ?_, added, hfunctions, hconfigured.symm, fun f hf => ?_⟩
    · refine List.Nodup.of_map some ?_
      rw [hlabels]
      exact nodup_taken
    · have hmem : label ∈ q.configured ↔ some label ∈ q.configured.map some := by simp
      rw [hmem, hlabels, List.mem_map]
      constructor
      · rintro ⟨e, he, hl⟩
        obtain ⟨c, hc, hgives⟩ := (mem_taken_entries_iff hnames).mp ⟨he, hl⟩
        exact ⟨c, hc, e, hgives⟩
      · rintro ⟨c, hc, e, hgives⟩
        exact ⟨e, (mem_taken_entries_iff hnames).mpr ⟨c, hc, hgives⟩⟩
    · obtain ⟨e, he, hdescribed⟩ := hadded f hf
      obtain ⟨c, hc, hgives⟩ := (mem_taken_entries_iff hnames).mp ⟨he, hdescribed.name⟩
      exact ⟨c, hc, e, hgives, hdescribed⟩

/-- A project with one configuration file. -/
def configuredOnly (text : String) : Files where
  here := "/"
  entries := [("p", .folder [("config", .folder [("c.json", .file { text })])])]

/-- An entry that is not well formed, one for `f`, and two for `h`. -/
def entriesOfH : String :=
  "[\x7b\"function_name\": \"h\", \"arguments\": 3\x7d, \x7b\"function_name\": \"f\"\x7d, " ++
    "\x7b\"function_name\": \"h\", \"arguments\": " ++
    "[\x7b\"name\": \"a\", \"type\": \"int *\"\x7d]\x7d, " ++
    "\x7b\"function_name\": \"h\"\x7d]"

/-- A project where `f` is defined. -/
def definesF : Project where
  analysis := { functions := #[{ name := .text "f", source := "a.c" }] }

/-- Only `h` is added, with the parameter that its first well-formed entry gives it. -/
theorem load_first_entriesOfH :
    ∃ q, load (configuredOnly entriesOfH) "/p" definesF = .ok ⟨⟩ q ∧ q.configured.Nodup ∧
      (∃ e, Gives (configuredOnly entriesOfH) "/p" definesF "h" e) ∧
      q.functions.map (fun f => (f.name, f.params)) =
        [(.text "f", []), (.text "h", [.text "a"])] := by
  have hnames : ∀ e ∈ entries (configuredOnly entriesOfH) "/p", TextNamed e.2 := by decide +kernel
  have hrun : (after? (load (configuredOnly entriesOfH) "/p" definesF)).map (fun q =>
      (q.configured, q.functions.map fun f => (f.name, f.params))) =
        some ([.text "h"], [(.text "f", []), (.text "h", [.text "a"])]) := by decide +kernel
  obtain ⟨q, hq, hvalue⟩ := ok_of_map hrun
  obtain ⟨hconfigured, hfunctions⟩ := Prod.mk.inj hvalue
  have hload := hq
  obtain ⟨hnodup, hiff, _⟩ := (load_first hnames rfl).2.2 q hload
  obtain ⟨c, hc, hgives⟩ :=
    (hiff (.text "h")).mp (by rw [hconfigured]; exact List.mem_singleton_self _)
  cases hc
  exact ⟨q, hload, hnodup, hgives, hfunctions⟩

/-- An entry for `g` whose argument has a number as its type, and one for `h`. -/
def numberForType : String :=
  "[\x7b\"function_name\": \"g\", \"arguments\": [\x7b\"name\": \"a\", \"type\": 5\x7d]\x7d, " ++
    "\x7b\"function_name\": \"h\"\x7d]"

/-- A number in place of a type is not passed over.  It ends the reading, and `h` is not added. -/
theorem load_numberForType : (∀ e ∈ entries (configuredOnly numberForType) "/p", TextNamed e.2) ∧
    ((first? (.text "h") (entries (configuredOnly numberForType) "/p")).map Prod.fst) =
      some "c.json" ∧
    fault? (load (configuredOnly numberForType) "/p" definesF) = some .typeNotText := by
  decide +kernel

end Config

end Footprint
