import Footprint.Proofs.Addresses.Names
import Footprint.Proofs.Configured.Entries
import Footprint.Proofs.StraightLine.Names

/-!
# The record of a configured function

The configuration entries of a project are read one after the other.  The first
one that claims a name which no definition has gives the function its record:
the parameters are the arguments of the entry, in their order, and what it reads
and writes is what is behind the pointer arguments with the flag.  Later entries
of the name are passed over, and no analysis changes the record but for the
targets of pointers.  So the record is there in every project that is reached
(`Reached.installed`), and in every state of a body (`Installed.steps`).
-/

namespace Footprint

open Config Memory

/-! ## Entries -/

namespace Config

/-- The entry of an argument has a name and a type, which are texts, and the flags. -/
structure Argument.Of (j : Json) (a : Argument) : Prop where
  name : (textUnder? j "name").map Label.text = some a.name
  named : a.name ≠ .text ""
  type : textUnder? j "type" = some a.type
  typed : a.type ≠ ""
  reads : a.reads = (fieldOrNull j "read").truthy
  writes : a.writes = (fieldOrNull j "write").truthy

/-- The entry describes the function: all its arguments have types, and names, which are different
and hold no bracket. -/
structure Describes (j : Json) (c : String) (args : List Argument) : Prop where
  name : textUnder? j "function_name" = some c
  named : c ≠ ""
  arguments : ∃ items ∈ itemsUnder? j "arguments", List.Forall₂ Argument.Of items args
  distinct : (args.map fun a => a.name.plain).Nodup
  function : '[' ∉ c.toList
  plain : ∀ a ∈ args, '[' ∉ a.name.plain.toList

/-- The entry is one for the function: it has the name, and its arguments are a list. -/
def Claims (c : String) (j : Json) : Prop :=
  textUnder? j "function_name" = some c ∧ (itemsUnder? j "arguments").isSome = true

instance (j : Json) (a : Argument) : Decidable (Argument.Of j a) :=
  decidable_of_iff (_ ∧ _ ∧ _ ∧ _ ∧ _ ∧ _)
    ⟨fun h => ⟨h.1, h.2.1, h.2.2.1, h.2.2.2.1, h.2.2.2.2.1, h.2.2.2.2.2⟩,
      fun h => ⟨h.name, h.named, h.type, h.typed, h.reads, h.writes⟩⟩

instance (j : Json) (c : String) (args : List Argument) : Decidable (Describes j c args) :=
  decidable_of_iff (_ ∧ _ ∧ _ ∧ _ ∧ _ ∧ _)
    ⟨fun h => ⟨h.1, h.2.1, h.2.2.1, h.2.2.2.1, h.2.2.2.2.1, h.2.2.2.2.2⟩,
      fun h => ⟨h.name, h.named, h.arguments, h.distinct, h.function, h.plain⟩⟩

instance (c : String) (j : Json) : Decidable (Claims c j) :=
  inferInstanceAs (Decidable (_ ∧ _))

/-- The project configures the function with the arguments: no definition has the name, and the
first entry for it describes it so. -/
structure Configures (fs : Files) (project c : String) (args : List Argument) : Prop where
  undefined : ∀ n ∈ definitions fs project, n.spelling ≠ c
  entry : ∃ e ∈ (entries fs project).find? (fun e => decide (Claims c e.2)), Describes e.2 c args

instance (fs : Files) (project c : String) (args : List Argument) :
    Decidable (Configures fs project c args) :=
  decidable_of_iff (_ ∧ _) ⟨fun h => ⟨h.1, h.2⟩, fun h => ⟨h.undefined, h.entry⟩⟩

variable {j : Json} {items : List Json} {args : List Argument}

theorem isObject_of_textUnder? {key s : String} (h : textUnder? j key = some s) :
    isObject j = true := by
  cases j with
  | obj fields => rfl
  | _ => cases h

theorem argumentFields_of {a : Argument} (h : Argument.Of j a) :
    ∃ n, argumentFields j = some (.str n, .str a.type) ∧ a.name = .text n := by
  obtain ⟨n, hn, hname⟩ := Option.map_eq_some_iff.mp h.name
  refine ⟨n, ?_, hname.symm⟩
  have hne : n ≠ "" := by
    rintro rfl
    exact h.named hname.symm
  have htruthy : ∀ s : String, s ≠ "" → (Json.str s).truthy = true := by
    intro s hs
    simp [Json.truthy, hs]
  unfold argumentFields
  dsimp only
  rw [textUnder?_eq_some.mp hn, textUnder?_eq_some.mp h.type, isObject_of_textUnder? hn,
    htruthy n hne, htruthy _ h.typed]
  rfl

/-- The arguments of a description are read as they are. -/
theorem arguments_of (h : List.Forall₂ Argument.Of items args) :
    ∃ named, namedArguments items = .ok named ∧ typedArguments named = .ok args := by
  induction h with
  | nil => exact ⟨[], rfl, rfl⟩
  | @cons j a items args hj _ ih =>
    obtain ⟨named, hnamed, htyped⟩ := ih
    obtain ⟨n, hfields, hname⟩ := argumentFields_of hj
    refine ⟨(.text n, .str a.type, j) :: named, ?_, ?_⟩
    · unfold namedArguments
      rw [hfields]
      simp only [Label.ofJson?, hnamed]
      rfl
    · unfold typedArguments
      simp only [htyped, ← hj.reads, ← hj.writes, ← hname]
      rfl

/-- What the names of a description are good for: the names of the arguments are texts and differ,
and no name holds a bracket. -/
structure Spelled (c : String) (args : List Argument) : Prop where
  text : ∀ a ∈ args, a.name = .text a.name.plain
  distinct : (args.map fun a => a.name.plain).Nodup
  function : '[' ∉ c.toList
  plain : ∀ a ∈ args, '[' ∉ a.name.plain.toList

theorem Argument.Of.text
    (h : List.Forall₂ Argument.Of items args) : ∀ a ∈ args, a.name = .text a.name.plain := by
  induction h with
  | nil =>
    intro a ha
    cases ha
  | cons hj _ ih =>
    intro a ha
    rcases List.mem_cons.mp ha with rfl | ha
    · obtain ⟨n, _, hname⟩ := Option.map_eq_some_iff.mp hj.name
      rw [← hname]
      rfl
    · exact ih a ha

theorem Describes.spelled {c : String} (h : Describes j c args) : Spelled c args := by
  obtain ⟨_, _, hargs⟩ := h.arguments
  exact ⟨Argument.Of.text hargs, h.distinct, h.function, h.plain⟩

end Config

/-! ## Variables that pointers are passed for -/

namespace Memory

variable {v : VarId} {m : Memory}

/-- The memory has the variable, and what is passed for it is taken for a pointer. -/
structure Referenced (v : VarId) (m : Memory) : Prop where
  lt : v < m.vars.size
  byReference : ByReference (m.varOf v)

theorem Referenced.setVar (h : Referenced v m) (id : VarId) {f : Variable → Variable}
    (hf : KeepsReference f) : Referenced v (m.setVar id f) := by
  refine ⟨by simpa [Memory.setVar] using h.lt, ?_⟩
  rw [varOf_setVar]
  split
  · exact hf _ h.byReference
  · exact h.byReference

theorem Referenced.push (h : Referenced v m) (u : Variable) :
    Referenced v { m with vars := m.vars.push u } := by
  refine ⟨Nat.lt_of_lt_of_le h.lt (by simp), ?_⟩
  rw [varOf_push, if_neg (Nat.ne_of_lt h.lt)]
  exact h.byReference

theorem laying_referenced (v : VarId) : Laying (Referenced v) where
  setVar id _ hf hm := hm.setVar id hf
  declare u hm := hm.push u
  block _ _ _ hm := ⟨hm.lt, hm.byReference⟩

theorem Referenced.sameBlocks {m' : Memory} (h : Referenced v m) (hs : SameBlocks m m') :
    Referenced v m' := by
  refine ⟨hs.vars ▸ h.lt, ?_⟩
  have hvar : m'.varOf v = m.varOf v := by
    unfold varOf
    rw [hs.vars]
  rw [hvar]
  exact h.byReference

theorem closed_referenced (T : TypeTable) (v : VarId) : Closed T (Referenced v) :=
  (laying_referenced v).closed (keeps_addRef fun h => h.sameBlocks)
    (keeps_removeRef fun h => h.sameBlocks) (keeps_clearRefs fun h => h.sameBlocks)

end Memory

/-- The function has the record of the description: its parameters are the arguments, and it reads
and writes what is behind the pointer arguments with the flag. -/
structure Function.Stands (T : TypeTable) (c : String) (args : List Argument) (m : Memory)
    (f : Function) : Prop where
  name : f.name = .text c
  params : f.params = args.map Argument.name
  reads : f.reads = flagged T c Argument.reads args
  writes : f.writes = flagged T c Argument.writes args
  body : f.body = none
  pointer : ∀ a ∈ args, T.isPointer a.type = true →
    ∃ v, f.vars.get? (ownedName c a.name.plain) = some v ∧ Referenced v m

variable {T : TypeTable} {c : String} {args : List Argument} {m : Memory} {f : Function}

theorem Function.Stands.mono {m' : Memory} (h : f.Stands T c args m)
    (hm : ∀ v, Referenced v m → Referenced v m') : f.Stands T c args m' := by
  refine ⟨h.name, h.params, h.reads, h.writes, h.body, fun a ha ht => ?_⟩
  obtain ⟨v, hv, href⟩ := h.pointer a ha ht
  exact ⟨v, hv, hm v href⟩

/-! ## Reading the entries -/

theorem Config.claims_iff (hc : c ≠ "") {j : Json} :
    Claims c j ↔ (claimed? j).map Label.key = some (.text c) := by
  unfold Claims claimed?
  rw [textUnder?_eq_some]
  constructor
  · rintro ⟨hname, hitems⟩
    simp [hname, hitems, Json.truthy, hc, Label.ofJson?, Label.key]
  · intro h
    obtain ⟨label, hl, hkey⟩ := Option.map_eq_some_iff.mp h
    obtain rfl := Label.eq_text_of_key hkey
    split at hl
    · next hentry =>
      refine ⟨?_, (Bool.and_eq_true_iff.mp hentry).2⟩
      cases hname : fieldOrNull j "function_name" with
      | str s => rw [hname] at hl; cases hl; rfl
      | _ => rw [hname] at hl; cases hl
    · cases hl

/-- What the variables of some arguments are, if the names differ. -/
theorem Config.DeclaresArguments.referenced {args : List Argument} {vars : Table String VarId}
    (h : DeclaresArguments T c args vars m) (hd : (args.map fun a => a.name.plain).Nodup)
    {a : Argument} (ha : a ∈ args) (ht : T.isPointer a.type = true) :
    ∃ v, vars.get? (ownedName c a.name.plain) = some v ∧ Referenced v m := by
  obtain ⟨v, hv⟩ := Option.isSome_iff_exists.mp (h.named a ha)
  obtain ⟨b, hb, hname, hvar⟩ := h.declared _ v hv
  obtain rfl := List.inj_on_of_nodup_map hd ha hb (StraightLine.ownedName_inj.mp hname)
  refine ⟨v, hv, (Array.getElem?_eq_some_iff.mp hvar).1, ?_⟩
  rw [varOf, hvar, Option.getD_some, ByReference, argumentVariable, ht]
  rfl

/-- An entry that describes the function gives it its record. -/
theorem Function.Described.stands {e : String × Json} (h : f.Described T m e)
    (hj : Describes e.2 c args) : f.Stands T c args m := by
  obtain ⟨items, hitems, hargs⟩ := hj.arguments
  obtain ⟨named, hnamed, htyped⟩ := arguments_of hargs
  obtain ⟨found, hread, hparams, hreads, hwrites, hvars⟩ := h.entry
  have hfound := (readEntry_eq_ok.mp hread).1
  rw [hitems, Option.getD_some, hnamed] at hfound
  cases htyped.symm.trans hfound
  rw [textUnder?_eq_some.mp hj.name] at hreads hwrites hvars
  refine ⟨?_, hparams, hreads, hwrites, h.body, fun a ha => hvars.referenced hj.distinct ha⟩
  have hclaims := (claims_iff hj.named).mp ⟨hj.name, by rw [hitems]; rfl⟩
  rw [h.name, Option.map_some, Option.some.injEq] at hclaims
  exact Label.eq_text_of_key hclaims

namespace Project

variable {fs : Files} {project c : String} {args : List Argument}

/-- The name is known, and the functions with it have the record of the description. -/
structure Given (T : TypeTable) (c : String) (args : List Argument) (p : Project) : Prop where
  known : p.knows (.text c) = true
  stands : ∀ f ∈ p.analysis.functions, f.name = .text c → f.Stands T c args p.analysis.memory

variable {p : Project}

/-- No function that is collected has a name that is not defined. -/
theorem knows_collected (hc : ∀ n ∈ definitions fs project, n.spelling ≠ c)
    (h : collect fs project {} = .ok ⟨⟩ p) : p.knows (.text c) = false := by
  obtain ⟨names, hlists⟩ := (collect_ends fs project).value _ _ h
  refine knows_text_eq_false_iff.mpr fun f hf hname => ?_
  have hmem : Label.text c ∈ names.map Label.text :=
    hlists.functions ▸ List.mem_map.mpr ⟨f, hf, hname⟩
  obtain ⟨d, hd, hdc⟩ := List.mem_map.mp hmem
  cases hdc
  rw [← List.mem_eraseDups, hlists.firsts, List.mem_eraseDups] at hd
  obtain ⟨n, hn, hspelling⟩ := List.mem_map.mp hd
  exact hc n hn hspelling

/-- A configured function has its record once the project is loaded. -/
theorem Loaded.given (h : Loaded fs project p)
    (hc : Configures fs project c args) : Given p.types c args p := by
  obtain ⟨p₁, p₂, hcollect, htypes, hload⟩ := h.steps
  obtain ⟨e, hfind, hj⟩ := hc.entry
  have hsized : Keeps (fun q : Project => q.knows (.text c) = false) (onTypes TypeTable.sizeAll) :=
    .zoom _ fun _ _ h => h
  have hunknown := (hsized.ends p₁ (knows_collected hc.undefined hcollect)).value _ _ htypes
  have hfirst : first? (.text c) (entries fs project) = some e := by
    simp only [first?, ← claims_iff hj.named]
    exact hfind
  rw [load_eq] at hload
  obtain ⟨_, hloads⟩ := (forM_addEntry_decides _ p₂).value _ _ hload
  obtain ⟨added, hfunctions, _, hnames, hadded⟩ := hloads.functions
  have hclaimed : claimed? e.2 = some (.text c) := by
    obtain ⟨_, label, hl, hkey⟩ := of_first? hfirst
    rw [hl, Label.eq_text_of_key hkey]
  refine ⟨?_, fun f hf hname => ?_⟩
  · have hmem : some (Label.text c) ∈ added.map fun f => some f.name := by
      rw [hnames]
      exact List.mem_map.mpr ⟨e, mem_taken_iff.mpr ⟨_, hclaimed, hunknown, hfirst⟩, hclaimed⟩
    obtain ⟨f, hf, hname⟩ := List.mem_map.mp hmem
    refine List.any_eq_true.mpr ⟨f, hfunctions ▸ List.mem_append_right _ hf, ?_⟩
    rw [Option.some.inj hname]
    exact decide_eq_true rfl
  · have hf : f ∈ p₂.functions ++ added := hfunctions ▸ Array.mem_toList_iff.mpr hf
    rcases List.mem_append.mp hf with hf | hf
    · exact absurd hname (knows_text_eq_false_iff.mp hunknown f hf)
    · obtain ⟨e', he', hdescribed⟩ := hadded f hf
      obtain ⟨label, hl, _, hfirst'⟩ := mem_taken_iff.mp he'
      cases (hname ▸ hdescribed.name).symm.trans hl
      cases hfirst.symm.trans hfirst'
      exact hdescribed.stands hj

end Project

/-! ## Analysing functions -/

/-- The record of the function is what it was, but for the targets of pointers. -/
def Walk.KeepsRecord (id : Nat) (f : Function) (w : Walk) : Prop :=
  ∃ ends, w.functions[id]? = some { f with pointerEnds := ends }

theorem Walk.keepsRecord_ends {s : Scope} (f : Function)
    (e : Table Nat (Option Int) → Table Nat (Option Int)) :
    Keeps (KeepsRecord s.root f)
      (changeRoot s fun f => { f with pointerEnds := e f.pointerEnds }) := by
  refine .modify fun w hw => ?_
  obtain ⟨ends, hw⟩ := hw
  refine ⟨e ends, ?_⟩
  rw [Array.getElem?_modify, if_pos rfl, hw]
  rfl

/-- The analysis of a function without a body changes the targets of pointers only. -/
theorem Analysis.analyse_bodiless {id : Nat} {a a' : Analysis}
    (hf : a.functions[id]? = some f) (hbody : f.body = none) (h : analyse T id a = .ok ⟨⟩ a') :
    ∃ ends, a'.functions[id]? = some { f with pointerEnds := ends } := by
  obtain ⟨s, w, henters⟩ := exists_enters hf h
  obtain ⟨_, a₄, _, _, hrest, hs, hw, _⟩ := henters.rest
  have hroot : s.root = id := by rw [hs]
  have hnotes : Walk.OfNotes (Walk.KeepsRecord s.root f) := ⟨fun _ _ hw => hw, fun _ _ hw => hw⟩
  have hstart : w.KeepsRecord s.root f := by
    refine ⟨f.pointerEnds, ?_⟩
    rw [hroot, hw, Analysis.bodyStart, hrest]
    exact hf
  have hperform : Keeps (Walk.KeepsRecord s.root f) (perform a.index s f) :=
    (hnotes.moves s).perform (Walk.keepsRecord_ends f) fun _ hf => by cases hbody.symm.trans hf
  obtain ⟨w', hw', hleft⟩ := (henters.ends hf (hperform.ends w hstart)).value _ _ h
  rw [hleft.functions, ← hroot]
  exact hw'

namespace Project

variable {fs : Files} {path c : String} {args : List Argument} {p : Project}

/-- The function is found under its name, and has the record of the description. -/
structure Installed (c : String) (args : List Argument) (p : Project) (k : Nat)
    (g : Function) : Prop where
  index : p.analysis.index.get? (.text c) = some k
  record : p.record? k = some g
  stands : g.Stands p.types c args p.analysis.memory

/-- A configured function has its record when the project has been read. -/
theorem installed_prepare (hc : Configures fs (fs.absolute path) c args)
    (h : prepare fs (fs.absolute path) {} = .ok ⟨⟩ p) : ∃ k g, Installed c args p k g := by
  have hprepared := (prepare_ends fs (fs.absolute path)).value _ _ h
  obtain ⟨p₀, m, a, hread, hglobals, hstart, rfl⟩ := exists_loaded h
  have hgiven := hread.given hc
  have hsame : a.functions = p₀.analysis.functions :=
    ((Analysis.start_ends _ _ _ _ _ _).value _ _ hstart).1
  have hknown : ({ p₀ with analysis := a } : Project).knows (.text c) = true := by
    rw [knows, functions, hsame]
    exact hgiven.known
  obtain ⟨k, hk⟩ := Option.isSome_iff_exists.mp (hprepared.isSome_index hknown)
  obtain ⟨g, hg, hname⟩ := hprepared.record_of_index hk
  have hmem : g ∈ p₀.analysis.functions := hsame ▸ Array.mem_of_getElem? hg
  refine ⟨k, g, hk, hg, (hgiven.stands g hmem hname).mono fun v hv => ?_⟩
  exact start_closed p₀ (closed_referenced p₀.types v) hread.aimed hv hglobals hstart

/-- A configured function keeps its record, whatever is analysed. -/
theorem Reached.installed (hp : Reached fs path p)
    (hc : Configures fs (fs.absolute path) c args) : ∃ k g, Installed c args p k g := by
  induction hp with
  | read h => exact installed_prepare hc h
  | @analysed p p' id hp ha ih =>
    obtain ⟨k, g, hinst⟩ := ih
    obtain ⟨hrun, htypes⟩ := analyse_value ha
    have hindex : p'.analysis.index.get? (.text c) = some k := by
      rw [((keeps_analyse (Analysis.frame_index id p.analysis.index)).ends p rfl).value _ _ ha]
      exact hinst.index
    have hmemory : ∀ v, Referenced v p.analysis.memory →
        Referenced v p'.analysis.memory := fun v hv =>
      Analysis.analyse_closed (closed_referenced p.types v) hp.aimed.analysis hv hrun
    have hstands : g.Stands p'.types c args p'.analysis.memory :=
      htypes ▸ hinst.stands.mono hmemory
    by_cases hid : k = id
    · subst hid
      obtain ⟨ends, hrecord⟩ := Analysis.analyse_bodiless hinst.record hinst.stands.body hrun
      exact ⟨k, _, hindex, hrecord, hstands.name, hstands.params, hstands.reads, hstands.writes,
        hstands.body, hstands.pointer⟩
    · have hrecord := ((keeps_analyse (Analysis.frame_record hid (p.record? k))).ends p rfl).value
        _ _ ha
      exact ⟨k, g, hindex, hrecord.trans hinst.record, hstands⟩

/-- In a body the record of a configured function is what it was before. -/
theorem Installed.steps {k id : Nat} {g : Function} (h : Installed c args p k g)
    (haimed : p.analysis.Aimed) {s : Scope} {w₀ w : Walk}
    (henters : Analysis.Enters p.types id p.analysis s w₀)
    (hbody : ((p.record? id).bind Function.body).isSome = true) (hsteps : Walk.Steps s w₀ w) :
    w.functions[k]? = some g ∧ g.Stands s.types c args w.memory := by
  obtain ⟨_, a₄, _, _, hrest, hs, hw₀, _⟩ := henters.rest
  have hroot : k ≠ s.root := by
    rw [hs]
    rintro rfl
    rw [h.record, Option.bind_some, h.stands.body] at hbody
    cases hbody
  have hstart : w₀.functions[k]? = some g := by
    rw [hw₀, Analysis.bodyStart, hrest]
    exact h.record
  refine ⟨hsteps.outer (Walk.outer_record hroot _) hstart, ?_⟩
  have htypes : p.types = s.types := by rw [hs]
  rw [← htypes]
  refine h.stands.mono fun v hv => hsteps.closed (htypes ▸ closed_referenced p.types v) ?_
  exact henters.closed (closed_referenced p.types v) haimed hv

end Project

end Footprint
