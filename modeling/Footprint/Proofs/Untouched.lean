import Footprint.Proofs.Addresses.Names
import Footprint.Proofs.Memory.Stable

/-!
# Analysing a function touches only its own marks

In every state that a run leads to, and for any body, the analysis of a function
leaves the blocks, the variables, the addresses of names and the records of the
other functions as they were, and adds no mark but its own.

The one name that an analysis could take away is written like a member of an
array element that is not laid out: laying out the element gives its members new
blocks.  Where declared names are identifiers there is no such name.  A name is
then built on names that have addresses (`Charted`), and so on that of the
element.
-/

namespace Footprint

open Memory Analysis

namespace Memory

variable {T : TypeTable}

/-- Where members have plain names, and as long as roots have, names are built on names. -/
theorem closed_charted
    (hT : ∀ r ∈ T.structs.values, ∀ name ∈ r.memberNames, name ≠ "" ∧ Path.Plain name.toList) :
    Closed T fun m => Linked none m ∧ (m.RootsPlain → m.Charted) := by
  refine closed_of_growth (J := fun m => Linked none m ∧ (m.RootsPlain → m.Charted))
    (admits_plainMembers hT) (fun _ hm => hm.1)
    fun m m' hgrowth hm => ⟨(hgrowth.after hm.1).linked, fun hroots => ?_⟩
  exact (hm.2 (hroots.before (hgrowth.keepsRoots hm.1))).addition hgrowth hroots

end Memory

namespace Project

variable {fs : Files} {path : String} {p p' : Project}

/-- The project with another body for a function. -/
def withBody (p : Project) (id : Nat) (body : Option Node) : Project :=
  { p with analysis := { p.analysis with
      functions := p.analysis.functions.modify id fun f => { f with body } } }

theorem record?_withBody_ne (p : Project) {id j : Nat} (hj : j ≠ id) (body : Option Node) :
    (p.withBody id body).record? j = p.record? j := by
  simp [record?, withBody, Array.getElem?_modify, hj.symm]

theorem record?_withBody (p : Project) (id : Nat) (body : Option Node) :
    (p.withBody id body).record? id = (p.record? id).map fun f => { f with body } := by
  simp [record?, withBody, Array.getElem?_modify]

/-- A function may be given any body before it is analysed. -/
theorem ready_withBody (h : p.analysis.Ready) (id : Nat) (body : Option Node) :
    (p.withBody id body).analysis.Ready := by
  have hmem : ∀ g ∈ (p.withBody id body).analysis.functions,
      ∃ g' ∈ p.analysis.functions, g'.name = g.name ∧ g'.vars = g.vars := by
    intro g hg
    obtain ⟨j, hj⟩ := Array.getElem?_of_mem hg
    by_cases he : j = id
    · subst he
      have hj := (record?_withBody p j body).symm.trans hj
      obtain ⟨g', hg', rfl⟩ := Option.map_eq_some_iff.mp hj
      exact ⟨g', Array.mem_of_getElem? hg', rfl, rfl⟩
    · have hj := (record?_withBody_ne p he body).symm.trans hj
      exact ⟨g, Array.mem_of_getElem? hj, rfl, rfl⟩
  have hparam : ∀ v, IsParam (p.withBody id body).analysis.functions v →
      IsParam p.analysis.functions v := by
    rintro v ⟨g, hg, hv⟩
    obtain ⟨g', hg', _, hvars⟩ := hmem g hg
    exact ⟨g', hg', hvars ▸ hv⟩
  refine
    { next := h.next, placed := h.placed
      declared := fun v hv => h.declared v (hparam v hv)
      owned := fun g hg v hv => ?_
      unlaid := fun v hv => h.unlaid v (hparam v hv) }
  obtain ⟨g', hg', hname, hvars⟩ := hmem g hg
  exact hname ▸ h.owned g' hg' v (hvars ▸ hv)

/-- The declared names are identifiers, as far as paths tell: every member of a struct has a name,
and no member and no variable that has been laid out has a separator in its name. -/
structure DeclaresIdentifiers (p : Project) : Prop where
  members : ∀ r ∈ p.types.structs.values, ∀ name ∈ r.memberNames,
    name ≠ "" ∧ Path.Plain name.toList
  roots : p.analysis.memory.RootsPlain

theorem declaresIdentifiers_iff (p : Project) : p.DeclaresIdentifiers ↔
    (∀ r ∈ p.types.structs.values, ∀ name ∈ r.memberNames, name ≠ "" ∧ Path.Plain name.toList) ∧
      p.analysis.memory.RootsPlain :=
  ⟨fun h => ⟨h.members, h.roots⟩, fun h => ⟨h.1, h.2⟩⟩

instance (p : Project) : Decidable p.DeclaresIdentifiers :=
  decidable_of_iff _ (declaresIdentifiers_iff p).symm

theorem Reached.charted (h : Reached fs path p)
    (hp : p.DeclaresIdentifiers) : p.analysis.memory.Charted :=
  (h.closed (closed_charted hp.members) ⟨linked_empty, fun _ => charted_empty⟩).2 hp.roots

end Project

/-- What the analysis of `f` leaves of a memory: the blocks and what their variables are, the marks
of other functions, and the addresses of names.  Names of the function are left out. -/
structure Memory.Untouched (f : String) (m m' : Memory) : Prop where
  block : ∀ a b, m.block? a = some b → ∃ b', m'.block? a = some b' ∧ b'.address = b.address ∧
    b'.parent = b.parent ∧ b'.var = b.var
  kept : ∀ a b, m.block? a = some b → (m'.varOf b.var).name = (m.varOf b.var).name ∧
    (m'.varOf b.var).type = (m.varOf b.var).type ∧
    (m'.varOf b.var).kind = (m.varOf b.var).kind ∧
    (m'.varOf b.var).domain = (m.varOf b.var).domain
  marks : ∀ id, (m.varOf id).MarkedBy f (m'.varOf id)
  names : ∀ n a, m.address? n = some a → Text.starts (ownerStart f) n = false →
    m'.address? n = some a

theorem Analysis.Leaves.untouched {f : String} {a a' : Analysis} (h : Ready a)
    (hcharted : a.memory.Charted) (hl : Leaves f a a') : a.memory.Untouched f a'.memory where
  block := hl.memory.block
  kept i b hb := ⟨hl.memory.name _ (h.placed i b hb), hl.memory.same i b hb⟩
  marks := hl.memory.marks
  names n i hn hstart := by
    refine hl.memory.names n i hn ?_
    rintro (howned | hnone | ⟨start, rest, rfl, hnone⟩)
    · rw [Text.starts_iff.mpr howned] at hstart
      cases hstart
    · rw [hn] at hnone
      cases hnone
    · have hunder : NamedUnder (start ++ "]") (start ++ "]." ++ rest) :=
        ⟨'.', rest.toList, by simp, .inl rfl⟩
      have hsome := hcharted.isSome_of_under (by rw [hn]; rfl) hunder
      rw [hnone] at hsome
      cases hsome

namespace Project

/-- Analysing a function with any body, in any state of a run, touches only its own marks. -/
theorem analyse_untouched {fs : Files} {path : String} {p p' : Project} (hp : Reached fs path p)
    (hnames : p.DeclaresIdentifiers) {id : Nat} {f : Function} (hf : p.record? id = some f)
    (body : Option Node)
    (ha : analyse id (p.withBody id body) = .ok ⟨⟩ p') :
    p.analysis.memory.Untouched f.name.plain p'.analysis.memory ∧
      ∀ j, j ≠ id → p'.record? j = p.record? j := by
  have hready := ready_withBody hp.ready id body
  have hname : ∀ g, (p.withBody id body).record? id = some g → g.name.plain = f.name.plain := by
    intro g hg
    rw [record?_withBody, hf] at hg
    cases hg
    rfl
  have huntouched := (analyse_leaves hready hname ha).untouched hready (hp.charted hnames)
  refine ⟨huntouched, fun j hj => ?_⟩
  have hrecord := keeps_analyse (Analysis.frame_record hj (p.record? j))
  exact (hrecord.ends _ (record?_withBody_ne p hj body)).value _ _ ha

/-! ## An array of points -/

/-- The definition of a function whose body reads one name. -/
def readerOf (function name : String) : Node :=
  Walk.definedAs function [.mk { kind := .declRef, spelling := name } [] none]

/-- A file with an array of points and two functions that read elements of it. -/
def points : Files := Walk.fileOf
  [Walk.structOf "point" [Walk.declarationOf .fieldDecl "x" "int" .other],
    Walk.declarationOf .varDecl "a" "struct point[4]" .array,
    readerOf "work" "a[1]", readerOf "log" "a[1]"]

/-- The project before and after the second function is analysed, with a body that reads the given
name. -/
def pointsRun? (name : String) : Option (Project × Project) :=
  (after? (prepare points (points.absolute "p") {})).bind fun p₀ =>
    (after? (analyse 0 p₀)).bind fun p =>
      (after? (analyse 1 (p.withBody 1 (some (readerOf "log" name))))).map fun p' => (p, p')

theorem reached_pointsRun {name : String} {p p' : Project} (h : pointsRun? name = some (p, p')) :
    Reached points "p" p ∧
      analyse 1 (p.withBody 1 (some (readerOf "log" name))) = .ok ⟨⟩ p' := by
  obtain ⟨p₀, hread, h⟩ := ok_of_bind h
  obtain ⟨_, hfirst, h⟩ := ok_of_bind h
  obtain ⟨_, hsecond, h⟩ := ok_of_map h
  cases h
  exact ⟨.analysed (.read hread) hfirst, hsecond⟩

theorem analyse_untouched_points :
    ∃ p p' f, Reached points "p" p ∧ p.DeclaresIdentifiers ∧ p.record? 1 = some f ∧
      analyse 1 (p.withBody 1 (some (readerOf "log" "a[2]"))) = .ok ⟨⟩ p' ∧
      p.analysis.memory.Untouched f.name.plain p'.analysis.memory ∧
      ∀ j, j ≠ 1 → p'.record? j = p.record? j := by
  have hrun : (((pointsRun? "a[2]").bind fun r => (r.1.record? 1).map fun f =>
      (decide r.1.DeclaresIdentifiers, f.name))) = some (true, .text "log") := by decide +kernel
  obtain ⟨⟨p, p'⟩, hr, hf⟩ := Option.bind_eq_some_iff.mp hrun
  obtain ⟨f, hf, hvalues⟩ := Option.map_eq_some_iff.mp hf
  have hnames := of_decide_eq_true (Prod.mk.inj hvalues).1
  obtain ⟨hp, ha⟩ := reached_pointsRun hr
  exact ⟨p, p', f, hp, hnames, hf, ha, analyse_untouched hp hnames hf _ ha⟩

end Project

end Footprint
