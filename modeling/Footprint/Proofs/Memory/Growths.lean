import Footprint.Proofs.Memory.Paths

/-!
# Calls as rows of additions

Whatever is asked of the memory adds to it, and does so in small steps: a part
is added, a root is added, or something changes that neither names nor parts
depend on.  `Growth` lists them.  What each of them keeps, every call keeps.

The first such property is that blocks are found by their names (`Listed`): a
block is added together with its name, and no name is ever taken away.
-/

namespace Footprint.Memory

variable {T : TypeTable} {P : Slot → Prop} {J : Memory → Prop} {m₀ m m' : Memory}

/-- The memory changes outside of names and parts, or a root or a part is added.  `P` is what is
known of the slots of parts. -/
inductive Growth (T : TypeTable) (P : Slot → Prop) (m : Memory) : Memory → Prop
  | noted {m' : Memory} (h : SameParts m m') : Growth T P m m'
  | root {id : VarId} (hid : id < m.vars.size) : Growth T P m (m.withRoot id)
  | part {m' : Memory} (h : Change T P False m m') : Growth T P m m'

/-- Additions one after the other. -/
abbrev Growths (T : TypeTable) (P : Slot → Prop) : Memory → Memory → Prop :=
  Relation.ReflTransGen (Growth T P)

theorem Growth.after (h : Growth T P m m') (hl : Linked none m) : After m m' := by
  cases h with
  | noted h => exact h.after hl
  | root hid => exact ⟨hl.withRoot hid, grows_withRoot hl _⟩
  | part h => exact h.after hl

theorem Growths.after (h : Growths T P m m') (hl : Linked none m) : After m m' := by
  induction h with
  | refl => exact .refl hl
  | tail _ hstep ih => exact ih.trans (hstep.after ih.linked)

theorem Growth.keepsRoots (h : Growth T P m m') (hl : Linked none m) : KeepsRoots m m' := by
  cases h with
  | noted h => exact h.keepsRoots hl
  | root hid => exact keepsRoots_withRoot m _
  | part h => exact Changes.keepsRoots (.single h) hl

theorem Growths.keepsRoots (h : Growths T P m m') (hl : Linked none m) : KeepsRoots m m' := by
  induction h with
  | refl => exact .refl m
  | tail hgrowths hgrowth ih =>
    exact ih.trans (hgrowth.keepsRoots (Growths.after hgrowths hl).linked)

theorem growths_of_changes (h : Changes T P False m m') : Growths T P m m' := by
  induction h with
  | refl => exact .refl
  | tail _ hchange ih => exact ih.tail (.part hchange)

theorem growths_sameParts (hm : Linked none m ∧ Growths T P m₀ m) (hs : SameParts m m') :
    Linked none m' ∧ Growths T P m₀ m' :=
  ⟨(hs.after hm.1).linked, hm.2.tail (.noted hs)⟩

theorem growths_changes (hm : Linked none m ∧ Growths T P m₀ m) (hc : Changes T P False m m') :
    Linked none m' ∧ Growths T P m₀ m' :=
  ⟨(Changes.after hc hm.1).linked, hm.2.trans (growths_of_changes hc)⟩

/-- Whatever is asked adds to a linked memory. -/
theorem building_growths (hT : Admits T P False) (hl₀ : Linked none m₀) :
    Building T False (fun s => s.IsElement ∧ P s) m₀ fun m => Linked none m ∧ Growths T P m₀ m where
  linked hm := hm.1
  vars hm := (hm.2.after hl₀).grows.vars
  setVar id _ hm hname hparts := growths_sameParts hm (sameParts_setVar _ id hname hparts)
  pointers hm hs := growths_sameParts hm hs.sameParts
  declare hm hv := growths_sameParts hm (sameParts_declare _ hv)
  root {m id} hm hid := by
    have hroot : Linked none (m.withRoot id) ∧ Growths T P m₀ (m.withRoot id) :=
      ⟨hm.1.withRoot hid, hm.2.tail (.root hid)⟩
    exact .of_changes (allocate_root_completes hT hm.1 hid False.elim)
      (fun _ _ hr => hr.2.1.changes) (fun hc => growths_changes hroot hc) False.elim
  element {m a name s} hm ha hs := by
    obtain ⟨b, hb, rfl⟩ := Option.map_eq_some_iff.mp ha
    refine (elementWith_completes (allocate_laysPart hT) hm.1 hb hs.1 hs.2).mono ?_ ?_
    · rintro _ m' ⟨hcompletes, _⟩
      exact ⟨growths_changes hm hcompletes.changes,
        (Changes.after hcompletes.changes hm.1).grows.name _ _ ha⟩
    · exact fun _ m' hstops => ⟨fun _ hf => hf, fun hne => growths_changes hm (hstops.changes hne)⟩
  resolve name := ⟨fun _ hm => .of_changes (resolve_completes hT name hm.1)
    (fun _ _ hr => hr.1.changes) (fun hc => growths_changes hm hc) False.elim⟩

/-- A call is a row of additions. -/
theorem Call.growths (hT : Admits T P False) {call : Call} (hl : Linked none m) (hf : call.Fits m)
    (hs : call.Elements fun s => s.IsElement ∧ P s) (hleads : Leads (call.run T) m m') :
    Growths T P m m' :=
  (((building_growths hT hl).call call hf hs).lays m ⟨hl, .refl⟩ |>.leads hleads).2

/-! ## Blocks are found by their names -/

/-- A linked memory in which the name of every block has an address. -/
structure Listed (m : Memory) : Prop where
  linked : Linked none m
  named : ∀ a n, m.nameAt? a = some n → (m.address? n).isSome

theorem listed_empty : Listed {} where
  linked := linked_empty
  named a n h := by
    cases a with
    | zero => cases h
    | succ a => cases h

variable {n : String}

theorem Growth.address?_isSome (h : Growth T P m m') (hl : Linked none m)
    (hn : (m.address? n).isSome) : (m'.address? n).isSome := by
  cases h with
  | noted h =>
    rw [address?, h.names]
    exact hn
  | root =>
    rw [withRoot, address?_withBlock]
    split
    · rfl
    · exact hn
  | part h => exact h.address?_isSome hl hn

/-- A block that an addition leaves named was there, or has just got its name. -/
theorem Growth.nameAt? (h : Growth T P m m') (hl : Linked none m) {a : Nat}
    (hn : m'.nameAt? a = some n) : nameAt? m a = some n ∨ (m'.address? n).isSome := by
  cases h with
  | noted h =>
    obtain ⟨b', hb', rfl⟩ := Option.map_eq_some_iff.mp hn
    obtain ⟨b, hb, _, hvar⟩ := h.exists_block_before hb'
    rw [hvar, (h.after hl).grows.var b.var (hl.var_lt hb)]
    exact .inl (nameAt?_of_block hb)
  | @root id _ =>
    rw [withRoot, nameAt?_withBlock hl rfl] at hn
    split at hn
    · cases hn
      exact .inr (by rw [withRoot, address?_withBlock, if_pos rfl]; rfl)
    · exact .inl hn
  | part h =>
    rcases h.names hl with ⟨_, hsame⟩ | ⟨_, _, _, _, _, _, _, hadded⟩
    · exact .inl (hsame a ▸ hn)
    · rcases hadded.nameAt? hl (h.after hl) hn with hold | ⟨_, rfl⟩
      · exact .inl hold
      · exact .inr (by rw [hadded.address, if_pos rfl]; rfl)

theorem Growth.listed (h : Growth T P m m') (hm : Listed m) : Listed m' := by
  refine ⟨(h.after hm.linked).linked, fun a n hn => ?_⟩
  rcases h.nameAt? hm.linked hn with hold | hnew
  · exact h.address?_isSome hm.linked (hm.named a n hold)
  · exact hnew

end Footprint.Memory
