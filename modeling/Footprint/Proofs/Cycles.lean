import Footprint.Proofs.PostOrder

/-!
# The loop ends unless it reaches a cycle

Where no cycle can be reached, `run_init` says in how many rounds the loop ends.
Here is the other direction.  A name is done only when it is taken from the
stack for the second time, so a function that calls itself is put on the stack
again and again above its own mark.

`Waiting` is what every round keeps.  The names that are done are a legal list,
and the callees of a marked name are done or stand above it (`Covered`).  When a
mark comes to the top, the callees of its name are done, and they were before
it.  Of the functions of a cycle none can be the first, so none is ever done.
-/

namespace Footprint.Order

variable {callees : Callees} {root f : String} {s s' : State}

theorem Legal.no_cycle : ∀ {done : List String}, Legal callees done → f ∈ done →
    ¬ Relation.TransGen (Calls callees) f f
  | k :: done, ⟨hk, hcs, hl⟩, hf => by
    rcases List.mem_cons.mp hf with rfl | hf
    · intro hcycle
      obtain ⟨g, hg, hback⟩ := Relation.TransGen.head'_iff.mp hcycle
      exact hk (hl.closed (hcs g hg) hback)
    · exact hl.no_cycle hf

/-! ## What stands above a mark -/

/-- The callees of each marked name are done or stand above it.  `above` holds the names that stand
above the given part of the stack. -/
def Covered (callees : Callees) (visited : List String) : List String → List (String × Bool) → Prop
  | _, [] => True
  | above, (f, marked) :: rest =>
    (marked = true → ∀ g ∈ callees f, g ∈ visited ∨ g ∈ above) ∧
      Covered callees visited (f :: above) rest

section Covered

variable {visited visited' above : List String} {stack : List (String × Bool)}

theorem Covered.mono (hsub : visited ⊆ visited')
    {above' : List String} (h : Covered callees visited above stack)
    (habove : ∀ g ∈ above, g ∈ visited' ∨ g ∈ above') : Covered callees visited' above' stack := by
  induction stack generalizing above above' with
  | nil => exact trivial
  | cons e stack ih =>
    obtain ⟨f, marked⟩ := e
    obtain ⟨hmark, hrest⟩ := h
    refine ⟨fun hm g hg => ?_, ih hrest fun g hg => ?_⟩
    · rcases hmark hm g hg with hg | hg
      · exact .inl (hsub hg)
      · exact habove g hg
    · rcases List.mem_cons.mp hg with rfl | hg
      · exact .inr (List.mem_cons_self ..)
      · exact (habove g hg).imp_right (List.mem_cons_of_mem f)

/-- Names without a mark may be put on top. -/
theorem Covered.push {next : List String}
    (h : Covered callees visited (next.reverse ++ above) stack) :
    Covered callees visited above (next.map (fun g => (g, false)) ++ stack) := by
  induction next generalizing above with
  | nil => exact h
  | cons g next ih =>
    refine ⟨fun hm => Bool.noConfusion hm, ih ?_⟩
    rwa [List.reverse_cons, List.append_assoc, List.singleton_append] at h

end Covered

/-! ## What every round keeps -/

/-- The names that are done were done in a legal order, the root is done or on the stack, and marks
are covered. -/
structure Waiting (callees : Callees) (root : String) (s : State) : Prop where
  legal : Legal callees s.visited
  root : root ∈ s.visited ∨ root ∈ s.stack.map Prod.fst
  covered : Covered callees s.visited [] s.stack

theorem waiting_init (callees : Callees) (root : String) : Waiting callees root (.init root) where
  legal := trivial
  root := .inr (List.mem_singleton_self root)
  covered := ⟨fun hm => Bool.noConfusion hm, trivial⟩

variable {rest : List (String × Bool)}

/-- The top of the stack is taken off where its name is done. -/
theorem Waiting.pop (h : Waiting callees root s) {e : String × Bool}
    (hstack : s.stack = e :: rest) {visited : List String} (hl : Legal callees visited)
    (hsub : s.visited ⊆ visited) (he : e.1 ∈ visited) (done : List String) :
    Waiting callees root { stack := rest, visited, done } := by
  obtain ⟨_, hroot, hcovered⟩ := h
  rw [hstack] at hroot hcovered
  refine ⟨hl, ?_, hcovered.2.mono hsub fun g hg => .inl (List.mem_singleton.mp hg ▸ he)⟩
  rcases hroot with hroot | hroot
  · exact .inl (hsub hroot)
  · rcases List.mem_cons.mp hroot with rfl | hroot
    · exact .inl he
    · exact .inr hroot

/-- A name that is not done is marked, and its callees are put above it. -/
theorem Waiting.expand (h : Waiting callees root s) (hstack : s.stack = (f, false) :: rest)
    {next : List String} (hnext : ∀ g ∈ callees f, g ∈ s.visited ∨ g ∈ next) :
    Waiting callees root
      { s with stack := next.map (fun g => (g, false)) ++ (f, true) :: rest } := by
  obtain ⟨hl, hroot, hcovered⟩ := h
  rw [hstack] at hroot hcovered
  refine ⟨hl, ?_, Covered.push ⟨fun _ g hg => ?_, hcovered.2.mono (List.Subset.refl _) ?_⟩⟩
  · rw [List.map_append]
    exact hroot.imp_right (List.mem_append_right _)
  · rw [List.append_nil, List.mem_reverse]
    exact hnext g hg
  · intro g hg
    rw [List.mem_singleton.mp hg]
    exact .inr (List.mem_cons_self ..)

theorem Waiting.step (h : Waiting callees root s) (hs : Order.step callees s = some s') :
    Waiting callees root s' := by
  unfold Order.step at hs
  split at hs
  · cases hs
  · next f rest hstack =>
    cases hs
    have hcovered := h.covered
    rw [hstack] at hcovered
    have hcallees : ∀ g ∈ callees f, g ∈ s.visited := fun g hg =>
      (hcovered.1 rfl g hg).resolve_right List.not_mem_nil
    split
    · next hf => exact h.pop hstack h.legal (List.Subset.refl _) (List.contains_iff_mem.mp hf) _
    · next hf =>
      have hlegal : Legal callees (f :: s.visited) :=
        ⟨fun hmem => hf (List.contains_iff_mem.mpr hmem), hcallees, h.legal⟩
      exact h.pop hstack hlegal (List.subset_cons_self ..) (List.mem_cons_self ..) _
  · next f rest hstack =>
    split at hs
    · next hf =>
      cases hs
      exact h.pop hstack h.legal (List.Subset.refl _) (List.contains_iff_mem.mp hf) _
    · cases hs
      rw [← List.map_reverse]
      refine h.expand hstack fun g hg => ?_
      by_cases hv : g ∈ s.visited
      · exact .inl hv
      · exact .inr (by simp [hg, hv])

theorem Waiting.rounds {n : Nat} (h : Waiting callees root s) (hr : Rounds callees n s s') :
    Waiting callees root s' := by
  induction hr with
  | refl => exact h
  | head hs _ ih => exact ih (h.step hs)

/-- When nothing is left to do, all that the root reaches was done in a legal order. -/
theorem Waiting.noCycleFrom (h : Waiting callees root s) (hs : s.stack = []) :
    NoCycleFrom callees root := by
  intro g hg
  have hroot : root ∈ s.visited := h.root.resolve_right (by simp [hs])
  exact h.legal.no_cycle (h.legal.closed hroot hg)

/-! ## Runs that end and runs that do not -/

/-- Some number of rounds empties the stack. -/
def Stops (callees : Callees) (s : State) : Prop := ∃ n s', Rounds callees n s s' ∧ s'.stack = []

/-- There is a round after every round. -/
def RunsForever (callees : Callees) (s : State) : Prop :=
  ∃ states : Nat → State, states 0 = s ∧ ∀ n, step callees (states n) = some (states (n + 1))

theorem step_eq_none : step callees s = none ↔ s.stack = [] := by
  unfold step
  split
  · next h => exact ⟨fun _ => h, fun _ => rfl⟩
  · next h => simp [h]
  · next h =>
    rw [h]
    split <;> simp

/-- The loop is deterministic. -/
theorem Rounds.eq_of_steps {states : Nat → State} {n : Nat} (hr : Rounds callees n s s')
    (hstep : ∀ n, step callees (states n) = some (states (n + 1))) :
    ∀ {m : Nat}, s = states m → s' = states (m + n) := by
  induction hr with
  | refl => exact fun h => h
  | head hs _ ih =>
    intro m hm
    rw [hm, hstep m] at hs
    rw [ih (Option.some.inj hs).symm, Nat.add_assoc, Nat.add_comm 1]

theorem RunsForever.not_stops (h : RunsForever callees s) : ¬ Stops callees s := by
  rintro ⟨n, s', hr, hs'⟩
  obtain ⟨states, hstart, hstep⟩ := h
  have hnone : step callees s' = none := step_eq_none.mpr hs'
  rw [hr.eq_of_steps hstep hstart.symm, hstep] at hnone
  cases hnone

theorem runsForever_of_not_stops (h : ¬ Stops callees s) : RunsForever callees s := by
  let next : State → State := fun s => (step callees s).getD s
  have hstep : ∀ n, Rounds callees n s (next^[n] s) →
      step callees (next^[n] s) = some (next^[n + 1] s) := by
    intro n hn
    cases hs : step callees (next^[n] s) with
    | none => exact absurd ⟨n, _, hn, step_eq_none.mp hs⟩ h
    | some s' => rw [Function.iterate_succ_apply', show next (next^[n] s) = s' by simp [next, hs]]
  have hrounds : ∀ n, Rounds callees n s (next^[n] s) := by
    intro n
    induction n with
    | zero => exact .refl s
    | succ n ih => exact ih.trans (.head (hstep n ih) (.refl _))
  exact ⟨fun n => next^[n] s, rfl, fun n => hstep n (hrounds n)⟩

/-- An order that is found within some rounds is found at the end of the loop. -/
theorem stops_of_run : ∀ {rounds : Nat} {s : State} {order : List String},
    run callees rounds s = some order → Stops callees s := by
  intro rounds
  induction rounds with
  | zero =>
    intro s order h
    rw [run] at h
    split at h
    · next hs => exact ⟨0, s, .refl s, step_eq_none.mp hs⟩
    · cases h
  | succ rounds ih =>
    intro s order h
    rw [run] at h
    split at h
    · next hs => exact ⟨0, s, .refl s, step_eq_none.mp hs⟩
    · next s' hs =>
      obtain ⟨n, s'', hr, he⟩ := ih h
      exact ⟨n + 1, s'', .head hs hr, he⟩

theorem stops_init_iff {edges : Nat} (hb : Bounded callees edges) (root : String) :
    Stops callees (.init root) ↔ NoCycleFrom callees root := by
  constructor
  · rintro ⟨n, s, hr, hs⟩
    exact ((waiting_init callees root).rounds hr).noCycleFrom hs
  · intro h
    obtain ⟨done, _, _, _, _, n, _, hr⟩ := run_init hb h
    exact ⟨n, _, hr, rfl⟩

/-- The loop empties its stack just if no cycle can be reached from the root, and this is where an
order is found.  Otherwise it runs forever, as where a function that can be reached calls itself. -/
theorem stops_iff_noCycle (g : Table String (List String)) (root : String) :
    (Stops (calleesIn g) (.init root) ↔ NoCycleFrom (calleesIn g) root) ∧
      ((ofTable? g root).isSome ↔ NoCycleFrom (calleesIn g) root) ∧
      (RunsForever (calleesIn g) (.init root) ↔ ¬ NoCycleFrom (calleesIn g) root) ∧
      ∀ f, Reaches (calleesIn g) root f → f ∈ calleesIn g f →
        RunsForever (calleesIn g) (.init root) := by
  have hstops := stops_init_iff (bounded_calleesIn g) root
  have hforever : RunsForever (calleesIn g) (.init root) ↔ ¬ NoCycleFrom (calleesIn g) root := by
    rw [← hstops]
    exact ⟨RunsForever.not_stops, runsForever_of_not_stops⟩
  refine ⟨hstops, ⟨fun h => ?_, fun h => ?_⟩, hforever, fun f hf hself => ?_⟩
  · obtain ⟨order, horder⟩ := Option.isSome_iff_exists.mp h
    exact hstops.mp (stops_of_run horder)
  · obtain ⟨done, _, _, _, _, n, hn, hr⟩ := run_init (bounded_calleesIn g) h
    exact Option.isSome_of_eq_some (hr.run_eq rfl hn)
  · exact hforever.mpr fun h => h f hf (.single hself)

/-- The root calls a function that calls itself and one that does not. -/
def countdown : Table String (List String) :=
  ⟨[("main", ["print", "count"]), ("count", ["print", "count"])]⟩

theorem stops_iff_noCycle_countdown :
    Reaches (calleesIn countdown) "main" "count" ∧ "count" ∈ calleesIn countdown "count" ∧
      RunsForever (calleesIn countdown) (.init "main") := by
  have hreach : Reaches (calleesIn countdown) "main" "count" :=
    .single (show "count" ∈ calleesIn countdown "main" by decide)
  have hself : "count" ∈ calleesIn countdown "count" := by decide
  exact ⟨hreach, hself, (stops_iff_noCycle countdown "main").2.2.2 "count" hreach hself⟩

end Footprint.Order
