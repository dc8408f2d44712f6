import Footprint.Proofs.Addresses.Run
import Footprint.Proofs.Call.Members
import Footprint.Proofs.Interface
import Footprint.Proofs.Memory.Users

/-!
# What the interface of a function says about the whole system

A parameter is meant to be a variable that no function writes, and a state
variable one that no other function uses.  A run from an entry knows nothing of
the functions that the entry does not reach, and the role of a parameter does
not depend on the other functions at all.

Where the functions that the entry reaches come first, in the order in which
they are analysed, the run over all functions starts like the run from the
entry.  The functions after them leave the marks of those before as they are
(`Memory.Spares`).  So a state variable is one of the whole system exactly if no
function that the entry does not reach uses it.
-/

namespace Footprint.Project

open Memory (Alike Spares Users Framed)

variable {fs : Files} {path : String} {p q q' : Project}

/-! ## The parts of a run -/

theorem keeps_schedule (I : Project → Prop) (entry : Option String) :
    Keeps I (schedule fs path entry) := by
  refine .bind .get fun p => ?_
  split
  · exact .bind (.orFault _) fun _ => .pure _
  · exact .pure _

/-- A run that ends has read the project, analysed the functions of its schedule, and given the
wholes the marks of their parts. -/
theorem ok_of_run {entry : Option String} (h : run fs path entry {} = .ok ⟨⟩ p) :
    ∃ p₀ ids q m, prepare fs (fs.absolute path) {} = .ok ⟨⟩ p₀ ∧
      schedule fs (fs.absolute path) entry p₀ = .ok ids p₀ ∧ ids.forM analyse p₀ = .ok ⟨⟩ q ∧
      Memory.collect q.analysis.memory = .ok ⟨⟩ m ∧
      p = { q with analysis := { q.analysis with memory := m } } := by
  obtain ⟨_, p₀, hread, hrest⟩ := exists_of_bind h
  obtain ⟨ids, p₁, hids, hanalysed⟩ := exists_of_bind hrest
  obtain ⟨_, q, hanalyse, hend⟩ := exists_of_bind hanalysed
  have hsame : p₁ = p₀ := ((keeps_schedule (· = p₀) entry).ends p₀ rfl).value _ _ hids
  subst hsame
  obtain ⟨a, hfinish, rfl⟩ := ok_of_zoom hend
  have hfinish : Analysis.onMemory Memory.collect q.analysis = .ok ⟨⟩ a := hfinish
  obtain ⟨m, hm, rfl⟩ := ok_of_zoom hfinish
  exact ⟨p₁, ids, q, m, hread, hids, hanalyse, hm, rfl⟩

/-- The names and the parameters of the functions are those of before. -/
def SameSignatures (q q' : Project) : Prop :=
  q'.analysis.functions.map Function.signature = q.analysis.functions.map Function.signature

theorem SameSignatures.record (h : SameSignatures q q') {id : Nat} {f : Function}
    (hf : q.record? id = some f) : ∃ f', q'.record? id = some f' ∧ f'.name = f.name := by
  have hget := congrArg (·[id]?) h
  simp only [Array.getElem?_map] at hget
  unfold record? at hf ⊢
  rw [hf] at hget
  obtain ⟨f', hf', hsame⟩ := Option.map_eq_some_iff.mp hget
  have hname : f'.signature.name = f.signature.name := congrArg Function.name hsame
  exact ⟨f', hf', hname⟩

theorem SameSignatures.size (h : SameSignatures q q') :
    q'.analysis.functions.size = q.analysis.functions.size := by
  have hsize := congrArg Array.size h
  simpa using hsize

/-- What every analysis of a function keeps that has a name in `N` is kept by a row of them. -/
theorem forM_analyse {N : String → Prop} {P : Memory → Prop}
    (hstep : ∀ {f params m m'}, N f → Framed f params m m' → P m → P m') :
    ∀ {ids : List Nat} {q q' : Project}, q.analysis.Ready →
      (∀ id ∈ ids, ∃ f, q.record? id = some f ∧ N f.name.plain) →
      ids.forM analyse q = .ok ⟨⟩ q' → P q.analysis.memory →
      P q'.analysis.memory ∧ SameSignatures q q' ∧ q'.analysis.Ready
  | [], _, _, hready, _, hrun, hp => by
    cases hrun
    exact ⟨hp, rfl, hready⟩
  | id :: ids, q, q', hready, hids, hrun, hp => by
    obtain ⟨_, q₁, hfirst, hrest⟩ := exists_of_bind hrun
    obtain ⟨f, hf, hn⟩ := hids id (List.mem_cons_self ..)
    have hname : ∀ g, q.record? id = some g → g.name.plain = f.name.plain := by
      intro g hg
      cases hf.symm.trans hg
      rfl
    have hleaves := analyse_leaves hready hname hfirst
    have hsame : SameSignatures q q₁ := hleaves.functions
    have hids₁ : ∀ j ∈ ids, ∃ g, q₁.record? j = some g ∧ N g.name.plain := by
      intro j hj
      obtain ⟨g, hg, hgn⟩ := hids j (List.mem_cons_of_mem id hj)
      obtain ⟨g', hg', hname⟩ := hsame.record hg
      exact ⟨g', hg', hname ▸ hgn⟩
    obtain ⟨hp', hsame', hready'⟩ := forM_analyse hstep (hready.leaves hleaves) hids₁ hrest
      (hstep hn hleaves.memory hp)
    exact ⟨hp', hsame'.trans hsame, hready'⟩

variable {S : String → Prop} {f : String} {params : VarId → Prop} {m m' : Memory}

theorem users_step (hf : S f) (h : Framed f params m m') (hm : Users S m) : Users S m' := by
  intro id g hused
  by_cases hg : g = f
  · exact hg ▸ hf
  · exact hm id g (hused.imp ((h.marks id).readers g hg).mp ((h.marks id).writers g hg).mp)

theorem spares_step {m₀ : Memory} (hf : ¬ S f) (h : Framed f params m m') (hm : Spares S m₀ m) :
    Spares S m₀ m' :=
  hm.trans (h.spares hf)

end Footprint.Project

/-! ## What the roles say of the marks -/

namespace Footprint.Memory.ByRole

variable {m : Memory} {n : String} {shared : NameSet}
  {places : Role → List Nat} (h : m.ByRole (.text n) shared lists places) {a : Nat}

include h

theorem exists_block {r : Role} (ha : a ∈ places r) : ∃ b, m.block? a = some b ∧
    m.HasRole (.text n) shared a (m.varOf b.var) r := by
  obtain ⟨v, hshown, hrole⟩ := (h.role r a).mp ha
  obtain ⟨b, hb, rfl⟩ := hshown.block
  exact ⟨b, hb, hrole⟩

theorem usedAt_state (ha : a ∈ places .state) {f : String} (hused : m.UsedAt a f) : f = n := by
  obtain ⟨b, hb, _, _, _, halone, _⟩ := h.exists_block ha
  obtain ⟨b', hb', hused⟩ := hused
  cases hb.symm.trans hb'
  rcases hused with hread | hwrite
  · cases halone.1 f hread
    rfl
  · cases halone.2 f hwrite
    rfl

theorem usedAt_self (ha : a ∈ places .state) : m.UsedAt a n := by
  obtain ⟨b, hb, ⟨_, he, hread⟩, _⟩ := h.exists_block ha
  cases he
  exact ⟨b, hb, .inl hread⟩

/-- The function does not write what is listed as a parameter. -/
theorem not_writtenAt_parameter (ha : a ∈ places .parameter) : ¬ m.WrittenAt a n := by
  obtain ⟨b, hb, _, hnot, _⟩ := h.exists_block ha
  rintro ⟨b', hb', hwrite⟩
  cases hb.symm.trans hb'
  exact hnot ⟨n, rfl, hwrite⟩

end Footprint.Memory.ByRole

/-! ## The run from an entry and the run over all functions -/

namespace Footprint.Project

open Memory (Alike Spares Users)

variable {fs : Files} {path : String} {p p' q q' : Project}

/-- The functions of the given names come first, in this order, and no other function has one of
the names. -/
structure ReachedFirst (p : Project) (names : List String) : Prop where
  first : p.scheduled names <+: List.range p.functions.length
  only : ∀ id f, p.record? id = some f → f.name.plain ∈ names → id ∈ p.scheduled names

instance (p : Project) (names : List String) : Decidable (p.ReachedFirst names) :=
  decidable_of_iff (p.scheduled names <+: List.range p.functions.length ∧
      ∀ id < p.analysis.functions.size, ∀ f ∈ p.record? id, f.name.plain ∈ names →
        id ∈ p.scheduled names) <| by
    constructor
    · intro h
      exact ⟨h.1, fun id f hf => h.2 id (Array.getElem?_eq_some_iff.mp hf).1 f hf⟩
    · intro h
      exact ⟨h.first, fun id _ f hf => h.only id f hf⟩

theorem Prepared.record_of_scheduled (h : Prepared fs path p) {names : List String} {id : Nat}
    (hid : id ∈ p.scheduled names) : ∃ f, p.record? id = some f ∧ f.name.plain ∈ names := by
  obtain ⟨name, hname, hid⟩ := List.mem_filterMap.mp hid
  obtain ⟨f, hf, hlabel⟩ := h.record_of_index hid
  exact ⟨f, hf, by rw [hlabel]; exact hname⟩

theorem forM_append : ∀ {ids ids' : List Nat} {p p' : Project},
    (ids ++ ids').forM analyse p = .ok ⟨⟩ p' →
    ∃ q, ids.forM analyse p = .ok ⟨⟩ q ∧ ids'.forM analyse q = .ok ⟨⟩ p'
  | [], _, p, _, h => ⟨p, rfl, h⟩
  | id :: ids, ids', p, p', h => by
    obtain ⟨_, p₁, hfirst, hrest⟩ := exists_of_bind h
    obtain ⟨q, hq, hq'⟩ := forM_append hrest
    exact ⟨q, (bind_of_ok hfirst).trans hq, hq'⟩

variable {s : Summary}

/-- What a summary lists is what is shown, by roles. -/
theorem byRole_of_summarize {n : String} (h : p.summarize (.text n) = .ok s)
    (hm : p.analysis.memory.ParentsFirst) : ∃ f places, f ∈ p.functions ∧ f.name = .text n ∧
    p.analysis.memory.ByRole (.text n) f.shared s.ofRole places := by
  unfold summarize at h
  split at h
  · cases h
  · next f hf =>
    cases h
    refine ⟨f, p.analysis.memory.placesOf n f.shared, List.mem_of_find?_eq_some hf, ?_, ?_⟩
    · have hkey := List.find?_some hf
      exact Label.eq_text_of_key (of_decide_eq_true hkey)
    · rw [Summary.ofRole_mk]
      exact Memory.byRole_text hm n f.shared

theorem parentsFirst_of_linked {m : Memory} (h : Memory.Linked none m) : m.ParentsFirst := by
  intro a b hb
  obtain ⟨hpos, hlt⟩ := h.lt_next_of_block hb
  obtain ⟨b', hb', hplaced⟩ := h.block a hpos hlt
  cases hb.symm.trans hb'
  exact hplaced.parent

/-- The wholes have been given the marks of their parts. -/
def Lifted (q p : Project) : Prop :=
  ∃ m, Memory.collect q.analysis.memory = .ok ⟨⟩ m ∧
    p = { q with analysis := { q.analysis with memory := m } }

theorem Lifted.after (h : Lifted q p) (hq : q.Aimed) :
    Memory.After q.analysis.memory p.analysis.memory := by
  obtain ⟨m, hm, rfl⟩ := h
  exact (Memory.collect_ends (J := q.analysis.memory.After)
    (Memory.keeps_liftMarks fun id _ h => h.setVar id) (.refl hq.analysis.memory.linked)).value
      _ _ hm

theorem Lifted.block? (h : Lifted q p) (a : Nat) :
    p.analysis.memory.block? a = q.analysis.memory.block? a := by
  obtain ⟨m, hm, rfl⟩ := h
  exact (Memory.collect_ends (J := fun n => n.block? a = q.analysis.memory.block? a)
    (fun h c => (Memory.block?_liftMarks _ c a).trans h) rfl).value _ _ hm

/-- A run from an entry that ends has read the project, analysed the functions that the entry
reaches, and given the wholes the marks of their parts. -/
structure FromEntry (fs : Files) (path : String) (names : List String) (p₀ q p : Project) :
    Prop where
  read : prepare fs (fs.absolute path) {} = .ok ⟨⟩ p₀
  analysed : (p₀.scheduled names).forM analyse p₀ = .ok ⟨⟩ q
  lifted : Lifted q p

theorem fromEntry_of_run {entry : String} (hne : entry ≠ "")
    (h : run fs path (some entry) {} = .ok ⟨⟩ p) :
    ∃ names p₀ q, order fs (fs.absolute path) entry = .ok names ∧
      FromEntry fs path names p₀ q p := by
  obtain ⟨p₀, ids, q, m, hread, hids, hanalyse, hm, hp⟩ := ok_of_run h
  cases ho : order fs (fs.absolute path) entry with
  | error e =>
    have hentry : (some entry).filter (!·.isEmpty) = some entry := by simp [hne]
    unfold schedule at hids
    obtain ⟨_, _, hget, hids⟩ := exists_of_bind hids
    cases hget
    rw [hentry] at hids
    simp only [ho] at hids
    cases hids
  | ok names =>
    cases (schedule_ok hne ho).symm.trans hids
    exact ⟨names, p₀, q, rfl, hread, hanalyse, m, hm, hp⟩

section FromEntry

variable {names : List String} {p₀ : Project} (h : FromEntry fs path names p₀ q p)

include h

theorem FromEntry.prepared : Prepared fs (fs.absolute path) p₀ :=
  (prepare_ends fs (fs.absolute path)).value _ _ h.read

theorem FromEntry.ready : p₀.analysis.Ready :=
  (prepare_ready fs (fs.absolute path)).value _ _ h.read

theorem FromEntry.aimed : q.Aimed := by
  have haimed := minds_prepare.leads aimed_empty (.inl ⟨_, h.read⟩)
  exact (Minds.forM fun id _ => minds_analyse id).leads haimed (.inl ⟨_, h.analysed⟩)

/-- Only functions that the entry reaches are in the marks. -/
theorem FromEntry.users : Users (· ∈ names) p.analysis.memory := by
  obtain ⟨m, hm, rfl⟩ := h.lifted
  have hstart : Users (· ∈ names) p₀.analysis.memory :=
    fun id f hused => absurd hused (prepare_unused h.read id f)
  have hscheduled : ∀ id ∈ p₀.scheduled names, ∃ f, p₀.record? id = some f ∧ f.name.plain ∈ names :=
    fun _ hid => h.prepared.record_of_scheduled hid
  obtain ⟨husers, _, _⟩ := forM_analyse users_step h.ready hscheduled h.analysed hstart
  exact (Memory.collect_ends (J := Users (· ∈ names)) (fun h a => h.liftMarks a) husers).value
    _ _ hm

theorem FromEntry.usedAt {a : Nat} {f : String} (hused : p.analysis.memory.UsedAt a f) :
    f ∈ names := by
  obtain ⟨b, _, hused⟩ := hused
  exact h.users b.var f hused

/-- The project is ready for the next function, and the functions are those that were read. -/
theorem FromEntry.sameSignatures : SameSignatures p₀ q ∧ q.analysis.Ready := by
  have hscheduled : ∀ id ∈ p₀.scheduled names, ∃ f, p₀.record? id = some f ∧ True :=
    fun _ hid => (h.prepared.record_of_scheduled hid).imp fun _ hf => ⟨hf.1, trivial⟩
  exact (forM_analyse (N := fun _ => True) (P := fun _ => True) (fun _ _ _ => trivial) h.ready
    hscheduled h.analysed trivial).2

/-- If the functions that the entry reaches come first, the run over all functions goes on with
others. -/
theorem FromEntry.goesOn (hfirst : p.ReachedFirst names)
    (hall : run fs path none {} = .ok ⟨⟩ p') :
    ∃ (rest : List Nat) (q' : Project),
      (∀ id ∈ rest, ∃ f, q.record? id = some f ∧ f.name.plain ∉ names) ∧
      rest.forM analyse q = .ok ⟨⟩ q' ∧ Lifted q' p' := by
  obtain ⟨m, _, rfl⟩ := h.lifted
  obtain ⟨p₀', ids', q', m', hread, hids, hanalyse, hlifted⟩ := ok_of_run hall
  cases h.read.symm.trans hread
  cases hids
  have hsize := h.sameSignatures.1.size
  have hindex : q.analysis.index = p₀.analysis.index :=
    ((keeps_index _ p₀.analysis.index).ends p₀ rfl).value _ _ h.analysed
  have hscheduled : q.scheduled names = p₀.scheduled names := by rw [scheduled, hindex]; rfl
  obtain ⟨rest, hrest⟩ := hfirst.first
  have hrange : p₀.scheduled names ++ rest = List.range p₀.analysis.functions.size := by
    have hrest : q.scheduled names ++ rest = List.range q.functions.length := hrest
    rw [hscheduled] at hrest
    rw [hrest, functions, Array.length_toList, hsize]
  have hnodup : (p₀.scheduled names ++ rest).Nodup := hrange ▸ List.nodup_range
  rw [← hrange] at hanalyse
  obtain ⟨q₁, hq₁, hlater⟩ := forM_append hanalyse
  cases h.analysed.symm.trans hq₁
  refine ⟨rest, q', fun id hid => ?_, hlater, m', hlifted⟩
  have hlt : id < q.analysis.functions.size := by
    rw [hsize]
    exact List.mem_range.mp (hrange ▸ List.mem_append_right _ hid)
  refine ⟨q.analysis.functions[id], Array.getElem?_eq_getElem hlt, fun hmem => ?_⟩
  have hagain : id ∈ q.scheduled names := hfirst.only id _ (Array.getElem?_eq_getElem hlt) hmem
  rw [hscheduled] at hagain
  exact (List.nodup_append.mp hnodup).2.2 id hagain id hid rfl

/-- If they come first, all further functions leave their marks and the names as they are. -/
theorem FromEntry.alike (hfirst : p.ReachedFirst names) (hall : run fs path none {} = .ok ⟨⟩ p') :
    Alike (· ∈ names) p.analysis.memory p'.analysis.memory ∧
      ∀ a b, p.analysis.memory.block? a = some b →
        p'.analysis.memory.nameAt? a = p.analysis.memory.nameAt? a := by
  obtain ⟨rest, q', hlate, hlater, hlifted'⟩ := h.goesOn hfirst hall
  obtain ⟨hspares, _, _⟩ :=
    forM_analyse spares_step h.sameSignatures.2 hlate hlater (Spares.refl (· ∈ names) _)
  obtain ⟨haimed', hgrows, _⟩ :=
    ((Minds.forM fun id _ => minds_analyse id).ends q h.aimed (.refl _)).value _ _ hlater
  have hafter := h.lifted.after h.aimed
  have hafter' := hlifted'.after haimed'
  constructor
  · obtain ⟨m, hm, rfl⟩ := h.lifted
    obtain ⟨m', hm', rfl⟩ := hlifted'
    exact hspares.collect h.aimed.analysis.memory.linked haimed'.analysis.memory.linked hm hm'
  · intro a b hb
    rw [h.lifted.block?] at hb
    have hname : q.analysis.memory.nameAt? a = some (q.analysis.memory.varOf b.var).name := by
      rw [Memory.nameAt?, hb]
      rfl
    rw [hafter.grows.name a _ hname]
    exact hafter'.grows.name a _ (hgrows.name a _ hname)

end FromEntry

/-- What a run from an entry says about the system.  The marks are those of the functions that the
entry reaches.  No other of them uses what is listed as state, and the function itself does not
write what is listed as a parameter.  Where the functions that the entry reaches come first, a state
variable is used by no other function of the system exactly if none that the entry does not reach
uses it, and a parameter is written by none exactly if none of either kind writes it. -/
theorem run_wholeSystem {entry : String} (hne : entry ≠ "")
    (hrun : run fs path (some entry) {} = .ok ⟨⟩ p) (hall : run fs path none {} = .ok ⟨⟩ p') :
    ∃ names, order fs (fs.absolute path) entry = .ok names ∧
      (∀ a f, p.analysis.memory.UsedAt a f → f ∈ names) ∧
      ∀ n s, p.summarize (.text n) = .ok s → ∃ g places, g ∈ p.functions ∧ g.name = .text n ∧
        p.analysis.memory.ByRole (.text n) g.shared s.ofRole places ∧
        (∀ a ∈ places .state, ∀ f, p.analysis.memory.UsedAt a f → f = n) ∧
        (∀ a ∈ places .parameter, ¬ p.analysis.memory.WrittenAt a n) ∧
        (p.ReachedFirst names →
          (∀ r, ∀ a ∈ places r,
            p'.analysis.memory.nameAt? a = p.analysis.memory.nameAt? a) ∧
          (∀ a ∈ places .state, (∀ f, p'.analysis.memory.UsedAt a f → f = n) ↔
            ∀ f, p'.analysis.memory.UsedAt a f → f ∈ names) ∧
          ∀ a ∈ places .parameter, (∀ f, ¬ p'.analysis.memory.WrittenAt a f) ↔
            (∀ f, ¬ p.analysis.memory.WrittenAt a f) ∧
              ∀ f, p'.analysis.memory.WrittenAt a f → f ∈ names) := by
  obtain ⟨names, p₀, q, ho, hentry⟩ := fromEntry_of_run hne hrun
  refine ⟨names, ho, fun _ _ => hentry.usedAt, fun n s hs => ?_⟩
  have hlinked := (hentry.lifted.after hentry.aimed).linked
  obtain ⟨g, places, hg, hname, hroles⟩ := byRole_of_summarize hs (parentsFirst_of_linked hlinked)
  refine ⟨g, places, hg, hname, hroles, fun a ha f => hroles.usedAt_state ha, fun a ha =>
    hroles.not_writtenAt_parameter ha, fun hfirst => ?_⟩
  obtain ⟨halike, hnames⟩ := hentry.alike hfirst hall
  refine ⟨fun r a ha => ?_, fun a ha => ?_, fun a ha => ?_⟩
  · obtain ⟨b, hb, _⟩ := hroles.exists_block ha
    exact hnames a b hb
  · obtain ⟨b, hb, _⟩ := hroles.exists_block ha
    have hself : n ∈ names := hentry.usedAt (hroles.usedAt_self ha)
    constructor
    · intro honly f hused
      rw [honly f hused]
      exact hself
    · intro honly f hused
      exact hroles.usedAt_state ha ((halike.usedAt hb (honly f hused)).mp hused)
  · obtain ⟨b, hb, _⟩ := hroles.exists_block ha
    constructor
    · intro hnone
      refine ⟨fun f hw => hnone f ?_, fun f hw => absurd hw (hnone f)⟩
      exact (halike.writtenAt hb (hentry.usedAt hw.usedAt)).mpr hw
    · rintro ⟨hnone, honly⟩ f hw
      exact hnone f ((halike.writtenAt hb (honly f hw)).mp hw)

/-! ## A meter -/

open Walk in
/-- A file with a function `f` that reads `limit` and counts in `total` and `count`, and a function
`g` that sets `limit` to `total`. -/
def meter : Files := fileOf
  [intVar "limit", intVar "out", intVar "total", intVar "count",
    definedAs "f" [between "=" (named "out") (named "limit"), following "++" (named "total"),
      following "++" (named "count")],
    definedAs "g" [between "=" (named "limit") (named "total")]]

/-- The meter after the run from `f`, with the interface of `f`, and after the run over all
functions. -/
def meterRuns? : Option (Project × Summary × Project) :=
  (after? (run meter "p" (some "f") {})).bind fun p =>
    (p.summarize (.text "f")).toOption.bind fun s =>
      (after? (run meter "p" none {})).map fun p' => (p, s, p')

theorem ok_of_toOption {ε α : Type} {x : Except ε α} {a : α} (h : x.toOption = some a) :
    x = .ok a := by
  cases x with
  | error e => cases h
  | ok b =>
    cases h
    rfl

theorem of_meterRuns? {p p' : Project} (h : meterRuns? = some (p, s, p')) :
    run meter "p" (some "f") {} = .ok ⟨⟩ p ∧ p.summarize (.text "f") = .ok s ∧
      run meter "p" none {} = .ok ⟨⟩ p' := by
  obtain ⟨_, hrun, h⟩ := ok_of_bind h
  obtain ⟨_, hs, h⟩ := Option.bind_eq_some_iff.mp h
  obtain ⟨_, hall, h⟩ := ok_of_map h
  cases h
  exact ⟨hrun, ok_of_toOption hs, hall⟩

theorem run_wholeSystem_meter :
    ∃ p p' s, ∃ g : Function, ∃ places, run meter "p" (some "f") {} = .ok ⟨⟩ p ∧
      run meter "p" none {} = .ok ⟨⟩ p' ∧
      p.summarize (.text "f") = .ok s ∧ p.ReachedFirst ["f"] ∧ s.state.length = 2 ∧
      p.analysis.memory.ByRole (.text "f") g.shared s.ofRole places ∧
      (∀ a ∈ places .state, (∀ f, p'.analysis.memory.UsedAt a f → f = "f") ↔
        ∀ f, p'.analysis.memory.UsedAt a f → f ∈ ["f"]) ∧
      ∀ a ∈ places .parameter, (∀ f, ¬ p'.analysis.memory.WrittenAt a f) ↔
        (∀ f, ¬ p.analysis.memory.WrittenAt a f) ∧
          ∀ f, p'.analysis.memory.WrittenAt a f → f ∈ ["f"] := by
  have horder : (order meter (meter.absolute "p") "f").toOption = some ["f"] := by decide +kernel
  have hruns : (meterRuns?.map fun (p, s, _) => (decide (p.ReachedFirst ["f"]), s.state.length)) =
      some (true, 2) := by decide +kernel
  obtain ⟨⟨p, s, p'⟩, hr, hvalues⟩ := Option.map_eq_some_iff.mp hruns
  simp only [Prod.mk.injEq, decide_eq_true_eq] at hvalues
  obtain ⟨hfirst, hlength⟩ := hvalues
  obtain ⟨hrun, hs, hall⟩ := of_meterRuns? hr
  obtain ⟨names, ho, _, hsummary⟩ := run_wholeSystem (by decide) hrun hall
  cases (ok_of_toOption horder).symm.trans ho
  obtain ⟨g, places, _, _, hroles, _, _, hsystem⟩ := hsummary "f" s hs
  obtain ⟨_, hstate, hparameter⟩ := hsystem hfirst
  exact ⟨p, p', s, g, places, hrun, hall, hs, hfirst, hlength, hroles, hstate, hparameter⟩

/-- The run from `f` lists `limit` as a parameter, which `g` writes, and `total` as state, which
`g` reads. -/
theorem meter_roles_not_systemWide :
    ∃ p p' s, run meter "p" (some "f") {} = .ok ⟨⟩ p ∧ run meter "p" none {} = .ok ⟨⟩ p' ∧
      p.summarize (.text "f") = .ok s ∧
      s.parameters.map Brief.name = ["limit"] ∧ p'.analysis.memory.address? "limit" = some 1 ∧
      p'.analysis.memory.WrittenAt 1 "g" ∧
      s.state.map Brief.name = ["total", "count"] ∧
      p'.analysis.memory.address? "total" = some 3 ∧ p'.analysis.memory.UsedAt 3 "g" := by
  have hwritten : (meterRuns?.bind fun (p, s, p') => (p'.analysis.memory.block? 1).map fun b =>
      (s.parameters.map Brief.name, p'.analysis.memory.address? "limit",
        (p'.analysis.memory.varOf b.var).writers)) = some (["limit"], some 1, ⟨["g"]⟩) := by
    decide +kernel
  have hread : (meterRuns?.bind fun (p, s, p') => (p'.analysis.memory.block? 3).map fun c =>
      (s.state.map Brief.name, p'.analysis.memory.address? "total",
        (p'.analysis.memory.varOf c.var).readers)) =
      some (["total", "count"], some 3, ⟨["f", "g"]⟩) := by
    decide +kernel
  obtain ⟨⟨p, s, p'⟩, hr, hwritten⟩ := Option.bind_eq_some_iff.mp hwritten
  rw [hr] at hread
  obtain ⟨b, hb, hwritten⟩ := Option.map_eq_some_iff.mp hwritten
  obtain ⟨c, hc, hread⟩ := Option.map_eq_some_iff.mp hread
  simp only [Prod.mk.injEq] at hwritten hread
  obtain ⟨hparameters, hlimit, hwriters⟩ := hwritten
  obtain ⟨hstate, htotal, hreaders⟩ := hread
  obtain ⟨hrun, hs, hall⟩ := of_meterRuns? hr
  refine ⟨p, p', s, hrun, hall, hs, hparameters, hlimit, ⟨b, hb, ?_⟩, hstate, htotal,
    ⟨c, hc, .inl ?_⟩⟩
  · rw [hwriters]
    decide
  · rw [hreaders]
    decide

end Footprint.Project
