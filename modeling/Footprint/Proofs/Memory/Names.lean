import Footprint.Proofs.Memory.Owned
import Footprint.Proofs.Memory.Rooted

/-!
# Names of parts

A lookup adds nothing but parts, and a part has a point or a bracket in its
name.  So what a name without them means is not changed by any lookup, and a
lookup of another name does not lead there.
-/

namespace Footprint

/-- The name is written like the name of a part. -/
def HasSteps (n : String) : Prop := '.' ∈ n.toList ∨ '[' ∈ n.toList

theorem hasSteps_suffix (name : String) (s : Slot) : HasSteps (name ++ s.suffix) := by
  rw [HasSteps, String.toList_append]
  cases s with
  | member m => exact .inl (List.mem_append_right _ (by simp [Slot.suffix]))
  | element i => exact .inr (List.mem_append_right _ (by simp [Slot.suffix]))
  | anyElement => exact .inr (List.mem_append_right _ (by decide))

/-- The rest of a path adds a point or a bracket, if there is any. -/
theorem hasSteps_pathEnd (name : String) {rest : String} (h : PathEnd rest) :
    rest = "" ∨ HasSteps (name ++ rest) := by
  cases hl : rest.toList with
  | nil => exact .inl (String.toList_eq_nil_iff.mp hl)
  | cons c cs =>
    refine .inr ?_
    rw [HasSteps, String.toList_append, hl]
    rcases h c (by rw [hl]; rfl) with rfl | rfl
    · exact .inl (List.mem_append_right _ (List.mem_cons_self ..))
    · exact .inr (List.mem_append_right _ (List.mem_cons_self ..))

namespace Memory

variable {T : TypeTable} {P : Slot → Prop} {D : Prop} {m m' : Memory}

theorem nameAlong_cases : ∀ {steps : List Step} {name found : String},
    nameAlong name steps = some found → steps = [] ∧ found = name ∨ HasSteps found
  | [], _, _, h => .inl ⟨rfl, (Option.some.inj h).symm⟩
  | .member mem :: rest, name, found, h => by
    have hrest : nameAlong (name ++ (Slot.member mem).suffix) rest = some found := h
    rcases nameAlong_cases hrest with ⟨_, rfl⟩ | hsteps
    · exact .inr (hasSteps_suffix ..)
    · exact .inr hsteps
  | .index text :: rest, name, found, h => by
    rw [nameAlong] at h
    split at h
    · rcases nameAlong_cases h with ⟨_, rfl⟩ | hsteps
      · exact .inr (hasSteps_suffix ..)
      · exact .inr hsteps
    · cases h
  | .broken :: _, _, _, h => nomatch h

/-- A lookup adds parts.  What it finds has the name that was looked up, or is a part. -/
theorem resolve_named (T : TypeTable) (name : String) (h : Linked none m) :
    Ends (resolve T name) m
      (fun found m' => Changes T (fun _ => True) False m m' ∧ ∀ c, found = some c →
        ∃ n, m'.nameAt? c = some n ∧ (n = name ∨ HasSteps n))
      (Stops T (fun _ => True) False m) := by
  refine (resolve_completes (admits_all T) name h).mono ?_ fun _ _ he => he
  rintro found m' ⟨hcompletes, hfound⟩
  refine ⟨hcompletes.changes, fun c hc => ?_⟩
  obtain ⟨hsome, hname | ⟨_, halong⟩⟩ := hfound c hc
  · have hgrows := (hcompletes.changes.after h).grows
    exact ⟨name, hgrows.name _ _ (h.name name c hname), .inl rfl⟩
  · obtain ⟨n, hn⟩ := Option.isSome_iff_exists.mp hsome
    rw [hn] at halong
    refine ⟨n, hn, ?_⟩
    rcases nameAlong_cases halong with ⟨hsteps, rfl⟩ | hsteps
    · exact .inl (root_eq_of_parse (Prod.ext rfl hsteps))
    · exact .inr hsteps

/-- A variable after an addition is the same but for its parts, or that of a part. -/
theorem Change.varOf (h : Change T P D m m') (id : VarId) :
    (∃ parts, m'.varOf id = { m.varOf id with parts }) ∨ HasSteps (m'.varOf id).name := by
  have hnote (j : VarId) (s : Slot) (a : Nat) :
      ∃ parts, (m.notePart j s a).varOf id = { m.varOf id with parts } := by
    rw [varOf_notePart]
    split
    · exact ⟨_, rfl⟩
    · exact ⟨_, rfl⟩
  cases h with
  | note => exact .inl (hnote ..)
  | add =>
    rw [varOf_withPart]
    split
    · exact .inr (hasSteps_suffix ..)
    · exact .inl (hnote ..)

end Memory

end Footprint
