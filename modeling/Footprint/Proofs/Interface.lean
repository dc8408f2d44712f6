import Footprint.Proofs.Text
import Footprint.Report.Summary
import Mathlib.Data.List.Forall2

/-!
# Five roles, and one of them for each variable

The interface of a function shows a block if its whole is not declared in a
body, the function reads or writes it, and it is not what a pointer parameter
points to.  Each block that is shown has one role, which depends on how the
function uses it, on where its whole is declared and on who else uses it.  The
list of a role has the blocks of that role, each once, by ascending address, and
nothing else.

The whole of a block is found by going from parent to parent.  `Whole` says what
is found, and parents that stand before their parts are the reason why the
search ends.
-/

namespace Footprint

namespace Memory

/-- Every block stands after its parent. -/
def ParentsFirst (m : Memory) : Prop := ∀ a b, m.block? a = some b → b.parent < a

instance (m : Memory) : Decidable m.ParentsFirst :=
  decidable_of_iff (∀ a < m.blocks.size, ∀ b ∈ m.block? a, b.parent < a) <| by
    refine ⟨fun h a b hb => h a ?_ b hb, fun h a _ b hb => h a b hb⟩
    exact (Array.getElem?_eq_some_iff.mp (Option.join_eq_some_iff.mp hb)).1

/-- The block `w` is the outermost whole that the block at an address is a part of. -/
inductive Whole (m : Memory) : Nat → Block → Prop where
  | itself {a : Nat} {w : Block} : m.block? a = some w → w.parent = 0 → Whole m a w
  | part {a : Nat} {b w : Block} : m.block? a = some b → b.parent ≠ 0 → Whole m b.parent w →
      Whole m a w

/-- The whole of the block at an address is declared in the domain. -/
def Under (m : Memory) (d : Domain) (a : Nat) : Prop :=
  ∃ w, m.Whole a w ∧ (m.varOf w.var).domain = d

variable {m : Memory}

theorem rootBlock?_eq_some (h : m.ParentsFirst) {a : Nat} {w : Block} :
    m.rootBlock? a = some w ↔ m.Whole a w := by
  induction a using Nat.strongRecOn with
  | _ a ih =>
    unfold rootBlock?
    cases hb : m.block? a with
    | none =>
      constructor
      · exact nofun
      · rintro (⟨hw, _⟩ | ⟨hw, _⟩) <;> rw [hb] at hw <;> cases hw
    | some b =>
      have hlt := h a b hb
      by_cases hp : b.parent = 0
      · simp only [hp, if_true, Option.some.injEq]
        constructor
        · rintro rfl
          exact .itself hb hp
        · rintro (⟨hw, _⟩ | ⟨hw, hne, _⟩) <;> cases hb.symm.trans hw
          · rfl
          · exact absurd hp hne
      · simp only [hp, hlt, if_true, if_false, ih b.parent hlt]
        constructor
        · exact .part hb hp
        · rintro (⟨hw, h0⟩ | ⟨hw, _, hrest⟩) <;> cases hb.symm.trans hw
          · exact absurd h0 hp
          · exact hrest

theorem rootDomain?_eq_some (h : m.ParentsFirst) {a : Nat} {d : Domain} :
    m.rootDomain? a = some d ↔ m.Under d a := by
  simp only [rootDomain?, Option.map_eq_some_iff, rootBlock?_eq_some h, Under]

end Memory

/-! ## Uses of a variable -/

namespace Variable

/-- The function reads the variable before it writes it. -/
def ReadBy (v : Variable) (f : Label) : Prop := ∃ n, f = .text n ∧ n ∈ v.readers

/-- The function writes the variable. -/
def WrittenBy (v : Variable) (f : Label) : Prop := ∃ n, f = .text n ∧ n ∈ v.writers

/-- No other function reads or writes the variable. -/
def UsedOnlyBy (v : Variable) (f : Label) : Prop :=
  (∀ g ∈ v.readers, f = .text g) ∧ ∀ g ∈ v.writers, f = .text g

variable {v : Variable} {n : String}

theorem readBy_text : v.ReadBy (.text n) ↔ v.readers.contains n = true := by
  simp only [ReadBy, Label.text.injEq, exists_eq_left', NameSet.contains]
  exact List.contains_iff_mem.symm

theorem writtenBy_text : v.WrittenBy (.text n) ↔ v.writers.contains n = true := by
  simp only [WrittenBy, Label.text.injEq, exists_eq_left', NameSet.contains]
  exact List.contains_iff_mem.symm

theorem usedOnlyBy_text : v.UsedOnlyBy (.text n) ↔
    (v.readers.toList.all (· = n) && v.writers.toList.all (· = n)) = true := by
  simp only [UsedOnlyBy, Label.text.injEq, Bool.and_eq_true, List.all_eq_true, decide_eq_true_eq]
  exact and_congr (forall₂_congr fun _ _ => eq_comm) (forall₂_congr fun _ _ => eq_comm)

end Variable

/-! ## Roles -/

namespace Memory

/-- The interface of `f` shows the block at an address, whose variable is `v`. -/
structure Shown (m : Memory) (f : Label) (a : Nat) (v : Variable) : Prop where
  block : ∃ b, m.block? a = some b ∧ m.varOf b.var = v
  outside : ¬ m.Under .inner a
  used : v.ReadBy f ∨ v.WrittenBy f
  name : ¬ ∃ t, v.name = t ++ pointeeEnding

/-- The block at an address, whose variable is `v`, has the role for `f`, which shares some names
with the functions that it calls. -/
def HasRole (m : Memory) (f : Label) (shared : NameSet) (a : Nat) (v : Variable) : Role → Prop
  | .parameter => v.ReadBy f ∧ ¬ v.WrittenBy f ∧ m.Under .global a
  | .state => v.ReadBy f ∧ v.WrittenBy f ∧ m.Under .global a ∧ v.UsedOnlyBy f ∧ v.name ∉ shared
  | .input => v.ReadBy f ∧ ¬ v.WrittenBy f ∧ ¬ m.Under .global a
  | .output => ¬ v.ReadBy f ∧ v.WrittenBy f
  | .inout => v.ReadBy f ∧ v.WrittenBy f ∧
      ¬ (m.Under .global a ∧ v.UsedOnlyBy f ∧ v.name ∉ shared)

/-- A variable that a function uses has one role. -/
theorem existsUnique_hasRole (m : Memory) (f : Label) (shared : NameSet) (a : Nat) {v : Variable}
    (h : v.ReadBy f ∨ v.WrittenBy f) : ∃! r, m.HasRole f shared a v r := by
  have hunique : ∀ r r', m.HasRole f shared a v r → m.HasRole f shared a v r' → r = r' := by
    intro r r' hr hr'
    -- two roles differ in whether the variable is read, whether it is written, or what it is under
    cases r <;> cases r' <;> simp only [HasRole] at hr hr' <;> first | rfl | (exfalso; tauto)
  have hsome : ∃ r, m.HasRole f shared a v r := by
    by_cases hr : v.ReadBy f
    · by_cases hw : v.WrittenBy f
      · by_cases hs : m.Under .global a ∧ v.UsedOnlyBy f ∧ v.name ∉ shared
        · exact ⟨.state, hr, hw, hs⟩
        · exact ⟨.inout, hr, hw, hs⟩
      · by_cases hg : m.Under .global a
        · exact ⟨.parameter, hr, hw, hg⟩
        · exact ⟨.input, hr, hw, hg⟩
    · exact ⟨.output, hr, h.resolve_left hr⟩
  obtain ⟨r, hr⟩ := hsome
  exact ⟨r, hr, fun r' hr' => hunique r' r hr' hr⟩

section RoleIn

variable {m : Memory} (h : m.ParentsFirst) {n : String} {shared : NameSet} {a : Nat} {v : Variable}

include h

/-- A variable that the interface shows is answered with its role. -/
theorem roleIn_of_hasRole {r : Role} (hout : ¬ m.Under .inner a)
    (hr : m.HasRole (.text n) shared a v r) :
    roleIn n shared (m.rootDomain? a) v = some r := by
  have hshared : v.name ∈ shared ↔ shared.contains v.name = true := List.contains_iff_mem.symm
  rw [← rootDomain?_eq_some h] at hout
  cases r <;>
    simp only [HasRole, Variable.readBy_text, Variable.writtenBy_text, Variable.usedOnlyBy_text,
      ← rootDomain?_eq_some h, hshared, Bool.not_eq_true] at hr
  case parameter => simp [roleIn, hr]
  case state =>
    obtain ⟨hread, hwrite, hglobal, halone, hname⟩ := hr
    simp only [roleIn, hread, hwrite, hglobal, halone, hname]
    rfl
  case input => simp [roleIn, hout, hr]
  case output => simp [roleIn, hout, hr]
  case inout =>
    obtain ⟨hread, hwrite, hstate⟩ := hr
    have hnot : (decide (m.rootDomain? a = some .global) &&
        (v.readers.toList.all (· = n) && v.writers.toList.all (· = n)) &&
        !shared.contains v.name) = false := by
      rw [Bool.eq_false_iff]
      intro hall
      simp only [Bool.and_eq_true, decide_eq_true_eq, Bool.not_eq_true'] at hall hstate
      exact hstate ⟨hall.1.1, hall.1.2, hall.2⟩
    simp only [roleIn, hread, hwrite, hout, Bool.true_and, hnot]
    rfl

theorem roleIn_eq_none (hnot : m.Under .inner a ∨ ¬ (v.ReadBy (.text n) ∨ v.WrittenBy (.text n))) :
    roleIn n shared (m.rootDomain? a) v = none := by
  rw [← rootDomain?_eq_some h, Variable.readBy_text, Variable.writtenBy_text] at hnot
  simp only [roleIn]
  rw [if_pos (by simpa using hnot)]

theorem roleIn_eq_some {r : Role} : roleIn n shared (m.rootDomain? a) v = some r ↔
    ¬ m.Under .inner a ∧ (v.ReadBy (.text n) ∨ v.WrittenBy (.text n)) ∧
      m.HasRole (.text n) shared a v r := by
  constructor
  · intro hr
    have hout : ¬ (m.Under .inner a ∨ ¬ (v.ReadBy (.text n) ∨ v.WrittenBy (.text n))) := by
      intro hnot
      rw [roleIn_eq_none h hnot] at hr
      cases hr
    rw [not_or, not_not] at hout
    obtain ⟨r', hr', _⟩ := m.existsUnique_hasRole (.text n) shared a hout.2
    rw [roleIn_of_hasRole h hout.1 hr'] at hr
    cases hr
    exact ⟨hout.1, hout.2, hr'⟩
  · rintro ⟨hout, _, hr⟩
    exact roleIn_of_hasRole h hout hr

end RoleIn

/-- The block at an address as a list of the interface has it. -/
def brief? (m : Memory) (a : Nat) : Option Brief :=
  (m.block? a).bind fun b => Brief.of (m.varOf b.var).name (m.varOf b.var).declared

/-- The block at an address as the list of a role has it, if it is in that list. -/
def listed? (m : Memory) (n : String) (shared : NameSet) (r : Role) (a : Nat) : Option Brief :=
  if m.roleAt n shared a = some r then m.brief? a else none

/-- The addresses of the blocks in the list of a role. -/
def placesOf (m : Memory) (n : String) (shared : NameSet) (r : Role) : List Nat :=
  (List.range m.blocks.size).filter fun a => (m.listed? n shared r a).isSome

theorem isSome_briefOf {name type : String} :
    (Brief.of name type).isSome = true ↔ ¬ ∃ t, name = t ++ pointeeEnding := by
  rw [← Text.ends_iff]
  unfold Brief.of
  split <;> simp_all

variable {m : Memory} {n : String} {shared : NameSet}

theorem isSome_listed? (h : m.ParentsFirst) {r : Role} {a : Nat} {b : Block}
    (hb : m.block? a = some b) :
    (m.listed? n shared r a).isSome = true ↔ m.Shown (.text n) a (m.varOf b.var) ∧
    m.HasRole (.text n) shared a (m.varOf b.var) r := by
  have hrole : m.roleAt n shared a = roleIn n shared (m.rootDomain? a) (m.varOf b.var) := by
    rw [roleAt, hb]
    rfl
  have hbrief : m.brief? a = Brief.of (m.varOf b.var).name (m.varOf b.var).declared := by
    rw [brief?, hb]
    rfl
  unfold listed?
  rw [hrole, hbrief]
  split
  · next hr =>
    obtain ⟨hout, hused, hhas⟩ := (roleIn_eq_some h).mp hr
    rw [isSome_briefOf]
    exact ⟨fun hname => ⟨⟨⟨b, hb, rfl⟩, hout, hused, hname⟩, hhas⟩, fun hs => hs.1.name⟩
  · next hr =>
    exact ⟨nofun, fun hs =>
      absurd ((roleIn_eq_some h).mpr ⟨hs.1.outside, hs.1.used, hs.2⟩) hr⟩

theorem mem_placesOf (h : m.ParentsFirst) {r : Role} {a : Nat} : a ∈ m.placesOf n shared r ↔ ∃ v,
    m.Shown (.text n) a v ∧ m.HasRole (.text n) shared a v r := by
  rw [placesOf, List.mem_filter, List.mem_range]
  constructor
  · rintro ⟨_, hs⟩
    cases hb : m.block? a with
    | none => simp [listed?, roleAt, hb] at hs
    | some b => exact ⟨_, (isSome_listed? h hb).mp hs⟩
  · rintro ⟨v, hs, hr⟩
    obtain ⟨b, hb, rfl⟩ := hs.block
    exact ⟨(Array.getElem?_eq_some_iff.mp (Option.join_eq_some_iff.mp hb)).1,
      (isSome_listed? h hb).mpr ⟨hs, hr⟩⟩

theorem forall₂_filterMap {α β : Type} (g : α → Option β) (l : List α) :
    List.Forall₂ (fun a b => g a = some b) (l.filter fun a => (g a).isSome) (l.filterMap g) := by
  induction l with
  | nil => exact .nil
  | cons a l ih =>
    cases hg : g a with
    | none => simpa [hg] using ih
    | some b => simpa [hg] using ih

/-- The list of a role has the blocks at its addresses, one after the other. -/
theorem forall₂_briefs (m : Memory) (n : String) (shared : NameSet) (r : Role) :
    List.Forall₂ (fun a brief => m.brief? a = some brief) (m.placesOf n shared r)
      (m.briefs n shared r) := by
  refine (forall₂_filterMap (m.listed? n shared r) (List.range m.blocks.size)).imp ?_
  intro a brief hl
  unfold listed? at hl
  split at hl
  · exact hl
  · cases hl

end Memory

/-- The list of a role. -/
def Summary.ofRole (s : Summary) : Role → List Brief
  | .parameter => s.parameters
  | .state => s.state
  | .input => s.input
  | .output => s.output
  | .inout => s.inout

theorem Summary.ofRole_mk (f : Label) (lists : Role → List Brief) :
    Summary.ofRole
      { function := f, parameters := lists .parameter, state := lists .state,
        input := lists .input, output := lists .output, inout := lists .inout } = lists := by
  funext r
  cases r <;> rfl

namespace Memory

/-- The interface has each block that is shown in the list of its role, once and by ascending
address, and nothing else. -/
structure ByRole (m : Memory) (f : Label) (shared : NameSet) (lists : Role → List Brief)
    (places : Role → List Nat) : Prop where
  ascending : ∀ r, (places r).Pairwise (· < ·)
  briefs : ∀ r, List.Forall₂ (fun a brief => m.brief? a = some brief) (places r) (lists r)
  role : ∀ r a, a ∈ places r ↔ ∃ v, m.Shown f a v ∧ m.HasRole f shared a v r
  once : ∀ a v, m.Shown f a v → ∃! r, a ∈ places r

variable {m : Memory} {f : Label} {v : Variable}

theorem Shown.unique {a : Nat} {v' : Variable} (h : m.Shown f a v)
    (h' : m.Shown f a v') : v = v' := by
  obtain ⟨b, hb, rfl⟩ := h.block
  obtain ⟨b', hb', rfl⟩ := h'.block
  cases hb.symm.trans hb'
  rfl

/-- What is shown is in the list of one role, as each block that is shown has one. -/
theorem existsUnique_mem {shared : NameSet} {places : Role → List Nat}
    (h : ∀ r a, a ∈ places r ↔ ∃ v, m.Shown f a v ∧ m.HasRole f shared a v r) {a : Nat}
    (hs : m.Shown f a v) : ∃! r, a ∈ places r := by
  obtain ⟨r, hr, hunique⟩ := m.existsUnique_hasRole f shared a hs.used
  refine ⟨r, (h r a).mpr ⟨v, hs, hr⟩, fun r' hr' => hunique r' ?_⟩
  obtain ⟨v', hs', hrole⟩ := (h r' a).mp hr'
  rwa [hs.unique hs']

theorem byRole_text (h : m.ParentsFirst) (n : String) (shared : NameSet) :
    m.ByRole (.text n) shared (m.briefs n shared) (m.placesOf n shared) where
  ascending _ := List.pairwise_lt_range.filter _
  briefs r := m.forall₂_briefs n shared r
  role _ _ := mem_placesOf h
  once _ _ := existsUnique_mem fun _ _ => mem_placesOf h

/-- Nothing is read or written under a name that is no text. -/
theorem byRole_nil (m : Memory) (hf : ∀ n, f ≠ .text n) (shared : NameSet) :
    m.ByRole f shared (fun _ => []) fun _ => [] := by
  have hshown : ∀ a v, ¬ m.Shown f a v := by
    intro a v hs
    obtain ⟨n, hn, _⟩ | ⟨n, hn, _⟩ := hs.used <;> exact hf n hn
  exact ⟨fun _ => .nil, fun _ => .nil, fun _ _ => ⟨nofun, fun ⟨v, hs, _⟩ => (hshown _ v hs).elim⟩,
    fun a v hs => (hshown a v hs).elim⟩

end Memory

namespace Project

theorem find?_first {before after : List Function} {f : Function}
    (h : ∀ g ∈ before, g.name.key ≠ f.name.key) :
    (before ++ f :: after).find? (fun g => g.name.key = f.name.key) = some f := by
  rw [List.find?_append, List.find?_eq_none.mpr (by simpa using h)]
  simp

/-- A function that is the first of its name has an interface, in which each block that is shown
stands in the list of its role. -/
theorem summarize_roles (p : Project) {before after : List Function} {f : Function}
    (hf : p.functions = before ++ f :: after) (hfirst : ∀ g ∈ before, g.name.key ≠ f.name.key)
    (hm : p.analysis.memory.ParentsFirst) :
    ∃ s places, p.summarize f.name = .ok s ∧ s.function = f.name ∧
      p.analysis.memory.ByRole f.name f.shared s.ofRole places := by
  have hfind : p.functions.find? (fun g => g.name.key = f.name.key) = some f := by
    rw [hf, find?_first hfirst]
  unfold summarize
  rw [hfind]
  dsimp only
  split
  · next n hn =>
    refine ⟨_, p.analysis.memory.placesOf n f.shared, rfl, rfl, ?_⟩
    rw [Summary.ofRole_mk, hn]
    exact Memory.byRole_text hm n f.shared
  · next hn =>
    refine ⟨_, fun _ => [], rfl, rfl, ?_⟩
    rw [Summary.ofRole_mk f.name fun _ => []]
    exact p.analysis.memory.byRole_nil hn f.shared

/-- A memory with a variable of each role for `update`, a local of it, and a block that is only
pointed to. -/
def controlMemory : Memory where
  vars := #[
    { name := "limit", type := "int", kind := .builtin, readers := ⟨["log", "update"]⟩ },
    { name := "sum", type := "struct sum", kind := .record, readers := ⟨["update"]⟩,
      writers := ⟨["update"]⟩ },
    { name := "sum.total", type := "float", kind := .builtin, readers := ⟨["update"]⟩,
      writers := ⟨["update"]⟩ },
    { name := "<update>in__pointee", type := "struct raw", kind := .record, domain := .param,
      readers := ⟨["update"]⟩ },
    { name := "<update>in__pointee.data", type := "short", kind := .builtin,
      readers := ⟨["update"]⟩ },
    { name := "command", type := "int", kind := .builtin, writers := ⟨["update"]⟩ },
    { name := "mode", type := "int", kind := .builtin, readers := ⟨["update"]⟩,
      writers := ⟨["reset", "update"]⟩ },
    { name := "<update>i", type := "int", kind := .builtin, domain := .inner,
      readers := ⟨["update"]⟩, writers := ⟨["update"]⟩ }]
  blocks := #[none, some ⟨1, 0, 0, {}⟩, some ⟨2, 0, 1, {}⟩, some ⟨3, 2, 2, {}⟩, some ⟨4, 0, 3, {}⟩,
    some ⟨5, 4, 4, {}⟩, some ⟨6, 0, 5, {}⟩, some ⟨7, 0, 6, {}⟩, some ⟨8, 0, 7, {}⟩]

/-- A project with that memory. -/
def control : Project where
  analysis :=
    { memory := controlMemory
      functions := #[{ name := .text "log", source := "a.c" },
        { name := .text "update", source := "a.c" }] }

/-- The interface of `update` in that project. -/
def controlSummary : Summary where
  function := .text "update"
  parameters := [⟨"limit", "int"⟩]
  state := [⟨"sum", "struct sum"⟩, ⟨"sum.total", "float"⟩]
  input := [⟨"in->data", "short"⟩]
  output := [⟨"command", "int"⟩]
  inout := [⟨"mode", "int"⟩]

theorem summarize_roles_control :
    controlMemory.ParentsFirst ∧ control.summarize (.text "update") = .ok controlSummary ∧
      ∃ places, controlMemory.ByRole (.text "update") {} controlSummary.ofRole places := by
  have hbriefs : ∀ r, controlMemory.briefs "update" {} r = controlSummary.ofRole r := by
    intro r
    cases r <;> decide +kernel
  have hsummary : control.summarize (.text "update") = .ok controlSummary := by
    show Except.ok (Summary.mk (.text "update") (controlMemory.briefs "update" {} .parameter)
      (controlMemory.briefs "update" {} .state) (controlMemory.briefs "update" {} .input)
      (controlMemory.briefs "update" {} .output) (controlMemory.briefs "update" {} .inout)) = _
    simp only [hbriefs]
    rfl
  have hm : controlMemory.ParentsFirst := by decide +kernel
  have hfunctions : control.functions = [{ name := .text "log", source := "a.c" }] ++
      { name := .text "update", source := "a.c" } :: [] := rfl
  obtain ⟨s, places, hs, _, hroles⟩ := summarize_roles control hfunctions (by decide) hm
  cases hsummary.symm.trans hs
  exact ⟨hm, hsummary, places, hroles⟩

end Project

end Footprint
