import Footprint.Project.Order
import Mathlib.Data.List.Perm.Subperm
import Mathlib.Logic.Relation
import Mathlib.Algebra.Order.BigOperators.Group.List

/-!
# The order of analysis is the depth-first post-order

The loop of `Order.step` keeps an explicit stack on which a name may stand many
times.  `visit` says what it computes without a stack: the callees of a function
are visited from the last to the first, and then the function itself is added.

The two are compared on graphs where no cycle can be reached.  The list of names
that are done is kept last first, as in `State.done`.  `Legal` says of such a
list that each of its names stands once and after its callees.  The main lemma
is `visit_spec`: from a legal list a name is taken off the stack, with
everything it brings there, in a number of rounds that the names it adds pay
for, and the list it leaves is the one that `visit` gives.
-/

namespace Footprint.Order

/-! ## Graphs -/

/-- A function calls another one. -/
def Calls (callees : Callees) (f g : String) : Prop := g ∈ callees f

/-- A function calls another one, directly or through others, or is it. -/
abbrev Reaches (callees : Callees) : String → String → Prop := Relation.ReflTransGen (Calls callees)

/-- No function that can be reached from `f` calls itself, directly or through others. -/
def NoCycleFrom (callees : Callees) (f : String) : Prop :=
  ∀ g, Reaches callees f g → ¬ Relation.TransGen (Calls callees) g g

/-- Distinct functions have at most `edges` callees together. -/
def Bounded (callees : Callees) (edges : Nat) : Prop :=
  ∀ fs : List String, fs.Nodup → total (fun f => (callees f).length) fs ≤ edges

mutual

/-- Visits a function after those that are done: its callees from the last to the first, then the
function.  A function that is done adds nothing. -/
inductive Visits (callees : Callees) : String → List String → List String → Prop
  | known {f : String} {done : List String} (h : f ∈ done) : Visits callees f done done
  | function {f : String} {done done' : List String} (h : f ∉ done)
      (hs : VisitsEach callees (callees f).reverse done done') :
      Visits callees f done (done' ++ [f])

/-- Visits some functions one after the other. -/
inductive VisitsEach (callees : Callees) : List String → List String → List String → Prop
  | nil {done : List String} : VisitsEach callees [] done done
  | cons {f : String} {fs done done' done'' : List String} (h : Visits callees f done done')
      (hs : VisitsEach callees fs done' done'') : VisitsEach callees (f :: fs) done done''

end

open Classical in
/-- What a visit of a function gives.  There is no result if the visit never ends. -/
noncomputable def visit (callees : Callees) (f : String) (done : List String) :
    Option (List String) :=
  if h : ∃ done', Visits callees f done done' then some h.choose else none

variable {callees : Callees}

mutual

theorem Visits.unique : ∀ {f : String} {done done₁ done₂ : List String},
    Visits callees f done done₁ → Visits callees f done done₂ → done₁ = done₂
  | _, _, _, _, .known _, .known _ => rfl
  | _, _, _, _, .known h, .function hn _ => absurd h hn
  | _, _, _, _, .function hn _, .known h => absurd h hn
  | _, _, _, _, .function _ hs, .function _ hs' => by rw [hs.unique hs']

theorem VisitsEach.unique : ∀ {fs done done₁ done₂ : List String},
    VisitsEach callees fs done done₁ → VisitsEach callees fs done done₂ → done₁ = done₂
  | _, _, _, _, .nil, .nil => rfl
  | _, _, _, _, .cons h hs, .cons h' hs' => by
    cases h.unique h'
    exact hs.unique hs'

end

variable {f g root : String} {done new : List String} {edges : Nat} {s' : State}
variable {rest : List (String × Bool)}

theorem visit_eq_some {done' : List String} :
    visit callees f done = some done' ↔ Visits callees f done done' := by
  unfold visit
  constructor
  · intro h
    split at h
    · next he =>
      cases h
      exact he.choose_spec
    · cases h
  · intro h
    have he : ∃ done', Visits callees f done done' := ⟨done', h⟩
    rw [dif_pos he, he.choose_spec.unique h]

theorem visitsEach_of_foldlM : ∀ {fs done done' : List String},
    fs.foldlM (fun done g => visit callees g done) done = some done' →
      VisitsEach callees fs done done'
  | [], _, _, h => by
    cases h
    exact .nil
  | f :: fs, done, done', h => by
    rw [List.foldlM_cons] at h
    obtain ⟨done₁, hf, hrest⟩ := Option.bind_eq_some_iff.mp h
    exact .cons (visit_eq_some.mp hf) (visitsEach_of_foldlM hrest)

theorem NoCycleFrom.of_calls (h : NoCycleFrom callees f) (hg : Calls callees f g) :
    NoCycleFrom callees g :=
  fun k hk => h k (.head hg hk)

theorem length_le_total_callees (fs : List String) (h : ∀ f ∈ fs, callees f ≠ []) :
    fs.length ≤ total (fun f => (callees f).length) fs := by
  induction fs with
  | nil => simp
  | cons f fs ih =>
    have hf : 0 < (callees f).length := List.length_pos_of_ne_nil (h f (by simp))
    have hfs := ih fun g hg => h g (by simp [hg])
    simp only [List.length_cons, total_cons]
    omega

/-- A path of functions that each call the next has no repetition where there is no cycle, so it is
not longer than the number of edges.  `path` holds the functions passed so far. -/
theorem acc_of_path (hb : Bounded callees edges) :
    ∀ (k : Nat) (path : List String) (f : String), path.Nodup → (∀ h ∈ path, callees h ≠ []) →
      (∀ h ∈ path, Relation.TransGen (Calls callees) h f) → NoCycleFrom callees f →
      edges < path.length + k → Acc (fun g f => Calls callees f g) f
  | 0, path, _, hn, hne, _, _, hk => by
      have hlen := (length_le_total_callees path hne).trans (hb path hn)
      omega
  | k + 1, path, f, hn, hne, hp, hc, hk => by
      refine Acc.intro f fun g hg => ?_
      have hf : f ∉ path := fun hf => hc f .refl (hp f hf)
      refine acc_of_path hb k (f :: path) g (List.nodup_cons.mpr ⟨hf, hn⟩) ?_ ?_
        (hc.of_calls hg) (by simp only [List.length_cons]; omega)
      · intro h hh
        cases List.mem_cons.mp hh with
        | inl he => subst he; exact List.ne_nil_of_mem hg
        | inr hh => exact hne h hh
      · intro h hh
        cases List.mem_cons.mp hh with
        | inl he => subst he; exact .single hg
        | inr hh => exact (hp h hh).tail hg

theorem NoCycleFrom.acc (hb : Bounded callees edges)
    (hc : NoCycleFrom callees f) : Acc (fun g f => Calls callees f g) f :=
  acc_of_path hb (edges + 1) [] f List.nodup_nil (by simp) (by simp) hc (by simp)

/-! ## Legal orders -/

/-- Each name stands once, and its callees after it.  The list is read last first. -/
def Legal (callees : Callees) : List String → Prop
  | [] => True
  | f :: done => f ∉ done ∧ (∀ g ∈ callees f, g ∈ done) ∧ Legal callees done

theorem Legal.nodup : ∀ {done : List String}, Legal callees done → done.Nodup
  | [], _ => List.nodup_nil
  | _ :: _, ⟨hf, _, h⟩ => List.nodup_cons.mpr ⟨hf, h.nodup⟩

theorem Legal.callee_after :
    ∀ {done : List String}, Legal callees done → f ∈ done → g ∈ callees f → [f, g].Sublist done
  | k :: done, ⟨_, hk, h⟩, hf, hg => by
      cases List.mem_cons.mp hf with
      | inl he =>
          subst he
          exact List.cons_sublist_cons.mpr (List.singleton_sublist.mpr (hk g hg))
      | inr hf => exact (h.callee_after hf hg).cons k

theorem Legal.callees_of_append {rest : List String} :
    ∀ {last : List String}, Legal callees (last ++ f :: rest) → ∀ g ∈ callees f, g ∈ rest
  | [], h => h.2.1
  | _ :: _, h => callees_of_append h.2.2

theorem Legal.closed (h : Legal callees done) (hf : f ∈ done)
    (hr : Reaches callees f g) : g ∈ done := by
  induction hr with
  | refl => exact hf
  | tail _ hc ih => exact (h.callee_after ih hc).mem (by simp)

/-- A name that reaches all others stands first. -/
theorem Legal.head_eq (h : Legal callees done)
    (hm : root ∈ done) (hr : ∀ g ∈ done, Reaches callees root g) : done.head? = some root := by
  cases done with
  | nil => cases hm
  | cons f done =>
    cases List.mem_cons.mp hm with
    | inl he => rw [he, List.head?_cons]
    | inr hm => exact absurd (h.2.2.closed hm (hr f (by simp))) h.1

/-! ## What visiting adds -/

theorem visit_of_mem (h : f ∈ done) : visit callees f done = some done :=
  visit_eq_some.mpr (.known h)

/-- Visiting `fs` one after the other adds the names `new`, last first. -/
structure Adds (callees : Callees) (fs done new : List String) : Prop where
  result : fs.foldlM (fun done g => visit callees g done) done.reverse = some (new ++ done).reverse
  legal : Legal callees (new ++ done)
  covers : ∀ f ∈ fs, f ∈ new ++ done
  reached : ∀ g ∈ new, ∃ f ∈ fs, Reaches callees f g

theorem Adds.nil (h : Legal callees done) : Adds callees [] done [] where
  result := rfl
  legal := h
  covers := by simp
  reached := by simp

theorem Adds.of_mem (h : Legal callees done) (hf : f ∈ done) : Adds callees [f] done [] where
  result := by simp [visit_of_mem, hf]
  legal := h
  covers := by simp [hf]
  reached := by simp

/-- One function is visited, and then the others. -/
theorem Adds.cons {fs new' : List String} (h : Adds callees [f] done new)
    (h' : Adds callees fs (new ++ done) new') : Adds callees (f :: fs) done (new' ++ new) where
  result := by
    have hf : visit callees f done.reverse = some (new ++ done).reverse := by
      simpa using h.result
    rw [List.foldlM_cons, hf, List.append_assoc]
    exact h'.result
  legal := by rw [List.append_assoc]; exact h'.legal
  covers := by
    intro g hg
    rw [List.append_assoc]
    cases List.mem_cons.mp hg with
    | inl he => exact List.mem_append_right _ (h.covers g (by simp [he]))
    | inr hg => exact h'.covers g hg
  reached := by
    intro g hg
    cases List.mem_append.mp hg with
    | inl hg =>
        obtain ⟨k, hk, hr⟩ := h'.reached g hg
        exact ⟨k, by simp [hk], hr⟩
    | inr hg =>
        obtain ⟨k, hk, hr⟩ := h.reached g hg
        exact ⟨k, by simpa using Or.inl (List.mem_singleton.mp hk), hr⟩

/-- A function whose callees were visited before is added last. -/
theorem Adds.function (hc : NoCycleFrom callees f)
    (hf : f ∉ done) (h : Adds callees (callees f).reverse done new) :
    f ∉ new ++ done ∧ Adds callees [f] done (f :: new) := by
  have hnew : f ∉ new := by
    intro hm
    obtain ⟨g, hg, hr⟩ := h.reached f hm
    exact hc f .refl (.head' (List.mem_reverse.mp hg) hr)
  have hall : f ∉ new ++ done := by simp [hnew, hf]
  refine ⟨hall, ?_, ⟨hall, fun g hg => h.covers g (by simp [hg]), h.legal⟩, by simp, ?_⟩
  · have hv : visit callees f done.reverse = some (f :: (new ++ done)).reverse := by
      rw [List.reverse_cons]
      exact visit_eq_some.mpr (.function (by simpa using hf) (visitsEach_of_foldlM h.result))
    simp [hv]
  · intro g hg
    refine ⟨f, by simp, ?_⟩
    cases List.mem_cons.mp hg with
    | inl he => rw [he]
    | inr hg =>
        obtain ⟨k, hk, hr⟩ := h.reached g hg
        exact .head (List.mem_reverse.mp hk) hr

/-! ## The rounds of the loop -/

/-- `n` rounds of the loop lead from one state to another. -/
inductive Rounds (callees : Callees) : Nat → State → State → Prop where
  | refl (s : State) : Rounds callees 0 s s
  | head {n : Nat} {s s' s'' : State} :
      step callees s = some s' → Rounds callees n s' s'' → Rounds callees (n + 1) s s''

theorem Rounds.trans {n n' : Nat} {s s'' : State} (h : Rounds callees n s s')
    (h' : Rounds callees n' s' s'') : Rounds callees (n + n') s s'' := by
  induction h with
  | refl => rwa [Nat.zero_add]
  | head hs _ ih => rw [Nat.add_right_comm]; exact .head hs (ih h')

/-- The loop ends where the stack is empty, however many rounds it is allowed beyond that. -/
theorem Rounds.run_eq {n : Nat} {s : State} (h : Rounds callees n s s') (he : s'.stack = [])
    {rounds : Nat} (hn : n ≤ rounds) : run callees rounds s = some s'.done.reverse := by
  induction h generalizing rounds with
  | refl s =>
    have hs : step callees s = none := by simp [step, he]
    rw [run, hs]
  | head hs _ ih =>
    obtain ⟨k, rfl⟩ : ∃ k, rounds = k + 1 := ⟨rounds - 1, by omega⟩
    rw [run, hs]
    exact ih he (by omega)

/-- The state in which the done names are just those that were put into the order. -/
def stateAt (stack : List (String × Bool)) (done : List String) : State :=
  { stack, visited := done, done }

/-- One for each name, and one for each of its callees. -/
def cost (callees : Callees) (fs : List String) : Nat :=
  total (fun f => (callees f).length + 1) fs

@[simp] theorem cost_append (fs gs : List String) :
    cost callees (fs ++ gs) = cost callees fs + cost callees gs := by
  simp [cost]

@[simp] theorem cost_cons (f : String) (fs : List String) :
    cost callees (f :: fs) = (callees f).length + 1 + cost callees fs := by
  simp [cost]

theorem cost_eq (fs : List String) :
    cost callees fs = total (fun f => (callees f).length) fs + fs.length := by
  induction fs with
  | nil => rfl
  | cons f fs ih => simp only [cost_cons, ih, total_cons, List.length_cons]; omega

theorem step_done (h : f ∈ done) :
    step callees (stateAt ((f, false) :: rest) done) = some (stateAt rest done) := by
  simp [step, stateAt, h]

theorem step_expand
    (h : f ∉ done) :
    step callees (stateAt ((f, false) :: rest) done) =
      some (stateAt
        ((((callees f).reverse.filter fun g => !done.contains g).map fun g => (g, false)) ++
          (f, true) :: rest) done) := by
  simp [step, stateAt, h, List.filter_reverse, List.map_reverse]

theorem step_emit (h : f ∉ done) :
    step callees (stateAt ((f, true) :: rest) done) = some (stateAt rest (f :: done)) := by
  simp [step, stateAt, h]

/-- A name that stands on the stack is taken off, with everything it brings there, in rounds that
the names it adds pay for. -/
def TakenOff (callees : Callees) (f : String) : Prop :=
  ∀ (done : List String) (rest : List (String × Bool)), Legal callees done →
    ∃ new n, Adds callees [f] done new ∧ n ≤ 1 + cost callees new ∧
      Rounds callees n (stateAt ((f, false) :: rest) done) (stateAt rest (new ++ done))

/-- Names are taken off one after the other.  Those of `base` are not put on the stack, since they
were done when the others were put there. -/
theorem takenOff_each (fs : List String) (hfs : ∀ f ∈ fs, TakenOff callees f) (base : List String) :
    ∀ (done : List String) (rest : List (String × Bool)), Legal callees done →
      (∀ g ∈ base, g ∈ done) →
      ∃ new n, Adds callees fs done new ∧ n ≤ fs.length + cost callees new ∧
        Rounds callees n
          (stateAt (((fs.filter fun g => !base.contains g).map fun g => (g, false)) ++ rest) done)
          (stateAt rest (new ++ done)) := by
  induction fs with
  | nil =>
    intro done rest hl _
    exact ⟨[], 0, .nil hl, by simp, .refl _⟩
  | cons f fs ih =>
    intro done rest hl hb
    by_cases hf : f ∈ base
    · obtain ⟨new, n, hadds, hn, hr⟩ := ih (fun g hg => hfs g (by simp [hg])) done rest hl hb
      refine ⟨new ++ [], n, (Adds.of_mem hl (hb f hf)).cons hadds, ?_, ?_⟩
      · simp only [List.append_nil, List.length_cons]
        omega
      · simpa [hf] using hr
    · obtain ⟨new, n, hadds, hn, hr⟩ := hfs f (by simp) done
        (((fs.filter fun g => !base.contains g).map fun g => (g, false)) ++ rest) hl
      obtain ⟨new', n', hadds', hn', hr'⟩ := ih (fun g hg => hfs g (by simp [hg])) (new ++ done)
        rest hadds.legal (fun g hg => List.mem_append_right _ (hb g hg))
      refine ⟨new' ++ new, n + n', hadds.cons hadds', ?_, ?_⟩
      · simp only [cost_append, List.length_cons]
        omega
      · rw [List.append_assoc]
        simpa [hf] using hr.trans hr'

/-- Every name from which no cycle can be reached is taken off. -/
theorem visit_spec (hacc : Acc (fun g f => Calls callees f g) f)
    (hc : NoCycleFrom callees f) : TakenOff callees f := by
  induction hacc with
  | intro f _ ih =>
    intro done rest hl
    by_cases hf : f ∈ done
    · exact ⟨[], 1, .of_mem hl hf, by simp, .head (step_done hf) (.refl _)⟩
    · have hcs : ∀ g ∈ (callees f).reverse, TakenOff callees g := by
        intro g hg
        have hg : Calls callees f g := List.mem_reverse.mp hg
        exact ih g hg (hc.of_calls hg)
      obtain ⟨new, n, hadds, hn, hr⟩ := takenOff_each _ hcs done done ((f, true) :: rest) hl
        (fun _ hg => hg)
      obtain ⟨hnew, hadds'⟩ := hadds.function hc hf
      refine ⟨f :: new, n + 1 + 1, hadds', ?_,
        .head (step_expand hf) (hr.trans (.head (step_emit hnew) (.refl _)))⟩
      simp only [List.length_reverse] at hn
      simp only [cost_cons]
      omega

/-- The names that can be reached are the root and callees, so there are not many. -/
theorem cost_le (hb : Bounded callees edges)
    (hl : Legal callees done) (hr : ∀ g ∈ done, Reaches callees root g) (hm : root ∈ done) :
    1 + cost callees done ≤ 2 * (edges + 1) := by
  have hsub : done ⊆ root :: done.flatMap callees := by
    intro g hg
    cases Relation.ReflTransGen.cases_tail (hr g hg) with
    | inl he => simp [he]
    | inr h =>
        obtain ⟨f, hf, hc⟩ := h
        exact List.mem_cons_of_mem _ (List.mem_flatMap.mpr ⟨f, hl.closed hm hf, hc⟩)
  have hlen := (hl.nodup.subperm hsub).length_le
  have hsum := hb done hl.nodup
  rw [List.length_cons, length_flatMap_eq_total] at hlen
  rw [cost_eq]
  omega

/-- The loop ends, and what it gives is what the visit gives. -/
theorem run_init (hb : Bounded callees edges)
    (hc : NoCycleFrom callees root) :
    ∃ done, Legal callees done ∧ root ∈ done ∧ (∀ g ∈ done, Reaches callees root g) ∧
      visit callees root [] = some done.reverse ∧
      ∃ n, n ≤ 2 * (edges + 1) ∧ Rounds callees n (State.init root) (stateAt [] done) := by
  obtain ⟨done, n, hadds, hn, hr⟩ := visit_spec (hc.acc hb) hc [] [] trivial
  rw [List.append_nil] at hr
  have hl : Legal callees done := by simpa using hadds.legal
  have hm : root ∈ done := by simpa using hadds.covers root
  have hreach : ∀ g ∈ done, Reaches callees root g := by
    intro g hg
    obtain ⟨f, hf, h⟩ := hadds.reached g hg
    rwa [List.mem_singleton.mp hf] at h
  exact ⟨done, hl, hm, hreach, by simpa using hadds.result, n,
    hn.trans (cost_le hb hl hreach hm), hr⟩

/-- The order that the loop gives is legal, and it has the functions that can be reached. -/
theorem fromRoot?_legal (hb : Bounded callees edges) (hc : NoCycleFrom callees root) :
    ∃ done, fromRoot? callees edges root = some done.reverse ∧ Legal callees done ∧ ∀ f, f ∈ done ↔
      Reaches callees root f := by
  obtain ⟨done, hl, hm, hreach, _, n, hn, hr⟩ := run_init hb hc
  exact ⟨done, hr.run_eq rfl hn, hl, fun f => ⟨hreach f, hl.closed hm⟩⟩

/-! ## Graphs as tables -/

/-- Distinct keys have distinct entries, so the sizes under them add up to no more than all
sizes. -/
theorem total_lookup_le {α : Type} (size : α → Nat) (entries : List (String × α)) :
    ∀ fs : List String, fs.Nodup →
      total (fun f => (Table.lookup f entries).elim 0 size) fs ≤
        total (fun e => size e.2) entries := by
  induction entries with
  | nil => intro fs _; simp [Table.lookup]
  | cons e entries ih =>
    intro fs hn
    obtain ⟨k, v⟩ := e
    have hrest : ∀ gs : List String, k ∉ gs →
        total (fun f => (Table.lookup f ((k, v) :: entries)).elim 0 size) gs =
          total (fun f => (Table.lookup f entries).elim 0 size) gs := by
      intro gs hk
      refine total_congr fun f hf => ?_
      have hne : k ≠ f := fun he => hk (he ▸ hf)
      simp [Table.lookup, hne]
    by_cases hk : k ∈ fs
    · have hk' : k ∉ fs.erase k := fun h => (List.Nodup.mem_erase_iff hn).mp h |>.1 rfl
      rw [total_perm (List.perm_cons_erase hk), total_cons, hrest _ hk', total_cons]
      have := ih (fs.erase k) (hn.erase k)
      simp only [Table.lookup, if_true, Option.elim_some]
      omega
    · rw [hrest fs hk, total_cons]
      have := ih fs hn
      omega

/-- The callees that a table gives. -/
def calleesIn (g : Table String (List String)) : Callees := fun f => (g.get? f).getD []

theorem bounded_calleesIn (g : Table String (List String)) :
    Bounded (calleesIn g) (total List.length g.values) := by
  intro fs hn
  have hle := total_lookup_le List.length g.entries fs hn
  have heq : total (fun f => (calleesIn g f).length) fs =
      total (fun f => (Table.lookup f g.entries).elim 0 List.length) fs := by
    refine total_congr fun f _ => ?_
    cases h : Table.lookup f g.entries <;> simp [calleesIn, Table.get?, h]
  rw [heq, Table.values, total_map]
  exact hle

/-- From a root without a reachable cycle the loop ends.  Its order has each function that can be
reached once, the root last and callees before their callers, and is the depth-first post-order. -/
theorem ofTable?_postOrder (g : Table String (List String)) (root : String)
    (h : NoCycleFrom (calleesIn g) root) :
    ∃ order, ofTable? g root = some order ∧
      (∃ n s, Rounds (calleesIn g) n (State.init root) s ∧ s.stack = [] ∧ s.done.reverse = order) ∧
      order.Nodup ∧
      (∀ f, f ∈ order ↔ Reaches (calleesIn g) root f) ∧
      order.getLast? = some root ∧
      (∀ u v, Reaches (calleesIn g) root u → v ∈ calleesIn g u → [v, u].Sublist order) ∧
      visit (calleesIn g) root [] = some order := by
  obtain ⟨done, hl, hm, hreach, hv, n, hn, hr⟩ := run_init (bounded_calleesIn g) h
  refine ⟨done.reverse, hr.run_eq rfl hn, ⟨n, _, hr, rfl, rfl⟩, ?_, ?_, ?_, ?_, hv⟩
  · exact List.pairwise_reverse.mpr (hl.nodup.imp Ne.symm)
  · intro f
    rw [List.mem_reverse]
    exact ⟨hreach f, hl.closed hm⟩
  · rw [List.getLast?_reverse]
    exact hl.head_eq hm hreach
  · intro u v hu hv
    exact (hl.callee_after (hl.closed hm hu) hv).reverse

/-- A graph in which every call goes to a function of smaller rank has no cycle. -/
theorem noCycleFrom_of_rank (rank : String → Nat)
    (h : ∀ f g, Calls callees f g → rank g < rank f) (root : String) :
    NoCycleFrom callees root := by
  have hlt : ∀ f g, Relation.TransGen (Calls callees) f g → rank g < rank f := by
    intro f g hc
    induction hc with
    | single hc => exact h _ _ hc
    | tail _ hc ih => exact (h _ _ hc).trans ih
  exact fun f _ hc => (hlt f f hc).false

/-- A diamond whose bottom has no entry of its own, with one call made twice. -/
def diamond : Table String (List String) :=
  ⟨[("a", ["b", "c", "b"]), ("b", ["d"]), ("c", ["d"])]⟩

theorem ofTable?_diamond :
    NoCycleFrom (calleesIn diamond) "a" ∧
      ∃ order, ofTable? diamond "a" = some order ∧ order.Nodup ∧
        (∀ f, f ∈ order ↔ Reaches (calleesIn diamond) "a" f) ∧ order.getLast? = some "a" ∧
        [("d" : String), "b"].Sublist order := by
  have h : NoCycleFrom (calleesIn diamond) "a" := by
    refine noCycleFrom_of_rank
      (fun f => if f = "a" then 2 else if f = "b" ∨ f = "c" then 1 else 0) ?_ "a"
    intro f g hc
    simp only [Calls, calleesIn, diamond, Table.get?, Table.lookup] at hc
    grind
  obtain ⟨order, ho, _, hn, hmem, hlast, hsub, _⟩ := ofTable?_postOrder diamond "a" h
  exact ⟨h, order, ho, hn, hmem, hlast,
    hsub "b" "d" (.single (show "b" ∈ calleesIn diamond "a" by decide)) (by decide)⟩

end Footprint.Order
