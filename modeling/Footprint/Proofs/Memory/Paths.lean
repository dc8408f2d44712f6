import Footprint.Proofs.Memory.Reached
import Footprint.Proofs.Memory.Rooted

/-!
# Lookups find what is named

`Built` are the memories that calls lead to from the empty one, where the members
of every struct have plain names, no two the same.  The types may change from
call to call.  Where also the roots of such a memory have plain names, no two
the same, it is rooted.

So a path that is looked up leads to the block that its canonical form names.
And a name that has an address leads to this address from its root, through the
parts of blocks alone and without a change of the memory.

That roots are apart is asked of the memory at the end.  Since no root is lost
and none is renamed, it holds on the way (`Shaped`).
-/

namespace Footprint

/-- The members of every struct have plain names, no two the same. -/
def TypeTable.MembersApart (T : TypeTable) : Prop :=
  ∀ r ∈ T.structs.values, r.memberNames.Nodup ∧
    ∀ name ∈ r.memberNames, name ≠ "" ∧ Path.Plain name.toList

theorem TypeTable.mem_values_of_recordFor? {T : TypeTable} {t : String} {r : Record}
    (h : T.recordFor? t = some r) : r ∈ T.structs.values := by
  unfold recordFor? at h
  split at h
  · next hr =>
    cases h
    exact Table.mem_values_of_get? hr
  · split at h
    · cases h
    · exact Table.mem_values_of_get? h

namespace Memory

variable {α β : Type} {T : TypeTable} {m₀ m m' : Memory}

theorem plain_of_slotOf {text : String} {s : Slot} (h : slotOf text = .ok (some s)) : s.Plain := by
  unfold slotOf at h
  split at h
  · cases h
    trivial
  · split at h
    · cases hread : Text.readDigits text with
      | ok i =>
        rw [hread] at h
        cases h
        exact Text.lt_of_readDigits hread
      | error e =>
        rw [hread] at h
        cases h
    · cases h

/-- Where members have plain names all slots are plain. -/
theorem admits_plainMembers
    (hT : ∀ r ∈ T.structs.values, ∀ name ∈ r.memberNames, name ≠ "" ∧ Path.Plain name.toList) :
    Admits T Slot.Plain False where
  any := trivial
  index _ _ := plain_of_slotOf
  member _ r hr e he :=
    hT r (TypeTable.mem_values_of_recordFor? hr) e.2 (List.of_mem_zip (a := e.1) he).2
  distinct := False.elim

/-- Where no two members of a struct have the same name, no part is added twice. -/
theorem admits_plain (hT : T.MembersApart) : Admits T Slot.Plain True where
  any := trivial
  index _ _ := plain_of_slotOf
  member := (admits_plainMembers fun r hr => (hT r hr).2).member
  distinct _ t r hr := by
    refine List.Sublist.nodup ?_ (hT r (TypeTable.mem_values_of_recordFor? hr)).1
    rw [Record.members, List.zip_eq_zip_take_min, List.map_snd_zip (by simp)]
    exact List.take_sublist ..

/-! ## What every step keeps -/

/-- The memory comes after `m₀`, and it is rooted if its roots are apart. -/
structure Shaped (m₀ m : Memory) : Prop where
  after : After m₀ m
  rooted : m.RootsApart → m.Rooted

theorem Shaped.sameParts (h : Shaped m₀ m) (hs : SameParts m m') : Shaped m₀ m' where
  after := h.after.trans (hs.after h.after.linked)
  rooted hroots := hs.rooted (h.rooted (hroots.before (hs.keepsRoots h.after.linked)))

theorem Shaped.setVar (h : Shaped m₀ m) (id : VarId) {f : Variable → Variable}
    (hname : ∀ v, (f v).name = v.name) (hparts : ∀ v, (f v).parts = v.parts) :
    Shaped m₀ (m.setVar id f) :=
  h.sameParts (sameParts_setVar m id hname hparts)

theorem Shaped.changes (h : Shaped m₀ m) (hc : Changes T Slot.Plain True m m') : Shaped m₀ m' where
  after := h.after.trans (Changes.after hc h.after.linked)
  rooted hroots :=
    Changes.rooted hc (h.rooted (hroots.before (Changes.keepsRoots hc h.after.linked)))

variable {id : VarId} {call : Call}

theorem Shaped.withRoot (h : Shaped m₀ m) (hid : id < m.vars.size) : Shaped m₀ (m.withRoot id) where
  after := h.after.trans ⟨h.after.linked.withRoot hid, grows_withRoot h.after.linked id⟩
  rooted hroots := (h.rooted (hroots.before (keepsRoots_withRoot m id))).withRoot hid hroots

/-- A variable that has parts is no new root, so the roots are not apart after it is laid out. -/
theorem Shaped.again {P : Slot → Prop} {D : Prop} (h : Shaped m₀ m)
    (hid : id < m.vars.size) (hparts : ¬ ∀ s, (m.varOf id).parts.get? s = none)
    (hc : Changes T P D (m.withRoot id) m') : Shaped m₀ m' := by
  have hroot := h.withRoot hid
  refine ⟨hroot.after.trans (Changes.after hc hroot.after.linked), fun hroots => ?_⟩
  have hroots := hroots.before (Changes.keepsRoots hc hroot.after.linked)
  have hrooted := h.rooted (hroots.before (keepsRoots_withRoot m id))
  exact absurd (hrooted.root_blank hroots) hparts

section Shaped

variable (hT : T.MembersApart)

include hT

/-- A declared variable is laid out. -/
theorem Shaped.allocate (h : Shaped m₀ m) {id : VarId} (hid : id < m.vars.size) :
    Lays False (Shaped m₀) (allocate T (m.varOf id).name (m.varOf id).type 0 (some id)) m := by
  have hl := h.after.linked
  by_cases hparts : ∀ s, (m.varOf id).parts.get? s = none
  · exact .of_changes (allocate_root_completes (admits_plain hT) hl hid fun _ => hparts)
      (fun _ _ hr => hr.2.1.changes) (fun hc => (h.withRoot hid).changes hc) False.elim
  · exact .of_changes (allocate_root_completes (admits_all T) hl hid False.elim)
      (fun _ _ hr => hr.2.1.changes) (fun hc => h.again hid hparts hc) False.elim

/-- An element of a named array is found or laid out. -/
theorem Shaped.element (h : Shaped m₀ m) {a : Nat} {name : String} (ha : m.nameAt? a = some name)
    {s : Slot} (hs : s.IsElement ∧ s.Plain) :
    Ends (element T a name s) m (fun _ m' => Shaped m₀ m' ∧ m'.nameAt? a = some name)
      fun e m' => (e = .endless → ¬ False) ∧ (e ≠ .endless → Shaped m₀ m') := by
  have hl := h.after.linked
  obtain ⟨b, hb, rfl⟩ := Option.map_eq_some_iff.mp ha
  refine (elementWith_completes (allocate_laysPart (admits_plain hT)) hl hb hs.1 hs.2).mono ?_ ?_
  · rintro _ m' ⟨hcompletes, _⟩
    exact ⟨h.changes hcompletes.changes, (Changes.after hcompletes.changes hl).grows.name _ _ ha⟩
  · exact fun _ m' hstops => ⟨fun _ hf => hf, fun hne => h.changes (hstops.changes hne)⟩

theorem building_shaped (m₀ : Memory) :
    Building T False (fun s => s.IsElement ∧ s.Plain) m₀ (Shaped m₀) where
  linked h := h.after.linked
  vars h := h.after.grows.vars
  setVar id _ h := h.setVar id
  pointers h hs := h.sameParts hs.sameParts
  declare h hv := h.sameParts (sameParts_declare _ hv)
  root h hid := h.allocate hT hid
  element h ha hs := h.element hT ha hs
  resolve name := ⟨fun _ hm => .of_changes
    (resolve_completes (admits_plain hT) name hm.after.linked) (fun _ _ hr => hr.1.changes)
    (fun hc => hm.changes hc) False.elim⟩

end Shaped

/-! ## Runs -/

/-- An array of the call has no more elements than an index can name. -/
def Call.Short : Call → Prop
  | .growArray _ _ length | .paramToArray _ _ length => length.toNat ≤ 10 ^ Text.maxDigits
  | _ => True

theorem Call.elements_plain (call : Call) (hs : call.Short) :
    call.Elements fun s => s.IsElement ∧ s.Plain := by
  cases call with
  | growArray | paramToArray =>
    exact ⟨⟨trivial, trivial⟩, fun k hk => ⟨trivial, Nat.lt_of_lt_of_le hk hs⟩⟩
  | _ => trivial

theorem Call.run_shaped (hT : T.MembersApart) (call : Call) (hf : call.Fits m₀)
    (hs : call.Short) : Safe False (Shaped m₀) (call.run T) :=
  (building_shaped hT m₀).call call hf (call.elements_plain hs)

/-- The memories that calls lead to, where the members of structs are apart. -/
inductive Built : Memory → Prop where
  | empty : Built {}
  | call {T : TypeTable} {m m' : Memory} {call : Call} : Built m → T.MembersApart → call.Fits m →
      call.Short → Leads (call.run T) m m' → Built m'

theorem Built.shaped (h : Built m) : Shaped m m := by
  have hrooted : Linked none m ∧ (m.RootsApart → m.Rooted) := by
    induction h with
    | empty => exact ⟨linked_empty, fun _ => rooted_empty⟩
    | @call T m m' call _ hT hf hs hleads ih =>
      have hm' := ((call.run_shaped hT hf hs).lays m ⟨.refl ih.1, ih.2⟩).leads hleads
      exact ⟨hm'.after.linked, hm'.rooted⟩
  exact ⟨.refl hrooted.1, hrooted.2⟩

theorem Call.leads_after (h : call.comesToEnd T m = true) :
    Leads (call.run T) m (call.after T m) := by
  unfold Call.after
  unfold Call.comesToEnd at h
  cases hrun : call.run T m with
  | ok u m' => exact .inl ⟨u, hrun⟩
  | error e m' =>
    refine .inr ⟨e, ?_, hrun⟩
    rintro rfl
    rw [hrun] at h
    cases h

/-- A path that is looked up leads to the block that its canonical form names.  A name that has an
address leads there from its root, through parts alone: whatever the names are on the way, the walk
gives the address and changes nothing. -/
theorem resolve_canonical (h : Built m) (hroots : m.RootsApart) :
    (∀ T path a m', resolve T path m = .ok (some a) m' →
      m'.nameAt? a = some (Path.canonical path)) ∧
    ∀ path a, m.address? path = some a → ∃ r, m.address? (Path.parse path).1 = some r ∧
      ∀ T names, follow T r (Path.parse path).2 { m with names } =
        .ok (some a) { m with names } := by
  have hrooted := h.shaped.rooted hroots
  constructor
  · intro T path a m' hrun
    have hends := (resolve_completes (admits_all T) path hrooted.linked).value _ _ hrun
    obtain ⟨hnamed, hfound | ⟨_, halong⟩⟩ := hends.2 a rfl
    · obtain ⟨root, slots, hreach⟩ := hrooted.named path a hfound
      have hname := (Changes.after hends.1.changes hrooted.linked).grows.name a path
        (hrooted.linked.name path a hfound)
      rw [hname, hreach.written, Path.canonical_written hreach.plainRoot hreach.plainSlots]
    · obtain ⟨n, hn⟩ := Option.isSome_iff_exists.mp hnamed
      rw [hn, Path.canonical_of_nameAlong (halong.trans hn)]
  · intro path a ha
    obtain ⟨root, slots, hreach⟩ := hrooted.named path a ha
    obtain ⟨r, b, hr, _, _, halong⟩ := hreach.start
    rw [hreach.written, Path.parse_written hreach.plainRoot hreach.plainSlots]
    exact ⟨r, hr, fun T names =>
      follow_along hrooted.linked T names (picks_step hreach.plainSlots) halong⟩

theorem membersApart_positions : positions.MembersApart := by
  unfold TypeTable.MembersApart
  decide +kernel

theorem Built.positionMemory_succ {k : Nat} (h : Built (positionMemory k))
    (hk : positionCalls[k]? = some call) (hf : call.Fits (positionMemory k)) (hs : call.Short)
    (he : call.comesToEnd positions (positionMemory k) = true) :
    Built (positionMemory (k + 1)) := by
  rw [Memory.positionMemory_succ hk]
  exact .call h membersApart_positions hf hs (Call.leads_after he)

theorem built_positionMemory : Built (positionMemory 5) := by
  have h₀ : Built (positionMemory 0) := .empty
  have h₁ := h₀.positionMemory_succ rfl (show _ = _ from rfl) trivial (by decide +kernel)
  have h₂ := h₁.positionMemory_succ rfl (show _ = _ from rfl) trivial (by decide +kernel)
  have h₃ := h₂.positionMemory_succ rfl
    (show ∀ id ∈ [0], id < (positionMemory 2).vars.size by decide +kernel) trivial
      (by decide +kernel)
  have h₄ := h₃.positionMemory_succ rfl trivial trivial (by decide +kernel)
  exact h₄.positionMemory_succ rfl
    (show 1 < (positionMemory 4).vars.size by decide +kernel) trivial (by decide +kernel)

/-- A path with an arrow and blanks leads to the element that its canonical form names, and the
name of an element leads to it in a memory without names. -/
theorem resolve_canonical_positionMemory :
    Built (positionMemory 5) ∧ (positionMemory 5).RootsApart ∧
    (∃ m', resolve positions "p->at[ 00 ]" (positionMemory 5) = .ok (some 7) m' ∧
      m'.nameAt? 7 = some "p.at[0]") ∧
    follow positions 1 [.member "at", .index "1"] { positionMemory 5 with names := {} } =
      .ok (some 5) { positionMemory 5 with names := {} } := by
  have hroots : (positionMemory 5).RootsApart := by decide +kernel
  obtain ⟨hnamed, hwalk⟩ := resolve_canonical built_positionMemory hroots
  have hvalue : value? (resolve positions "p->at[ 00 ]" (positionMemory 5)) = some (some 7) := by
    decide +kernel
  obtain ⟨m', hrun⟩ := exists_of_value? hvalue
  have hcanonical : Path.canonical "p->at[ 00 ]" = "p.at[0]" := by decide +kernel
  have hname := hnamed _ _ _ _ hrun
  rw [hcanonical] at hname
  have haddress : (positionMemory 5).address? "p.at[1]" = some 5 := by decide +kernel
  obtain ⟨r, hr, hfollow⟩ := hwalk _ _ haddress
  have hroot : (positionMemory 5).address? (Path.parse "p.at[1]").1 = some 1 := by decide +kernel
  cases hroot.symm.trans hr
  exact ⟨built_positionMemory, hroots, ⟨m', hrun, hname⟩, hfollow positions {}⟩

end Memory

end Footprint
