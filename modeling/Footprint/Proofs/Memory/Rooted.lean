import Footprint.Proofs.Path

/-!
# Names lead where they say

Where no two roots have the same name, and no root has a separator in its name,
the name of every block is a root with slots after it, and the slots lead from
the root to the block through the parts of blocks.  Such a memory is `Rooted`.
The name of a block has the address of the block, so that no name is written
over.

Three kinds of changes are what every step on the memory is made of: a part is
added (`Change`), a root is added (`withRoot`), and something else is changed
that neither names nor parts depend on (`SameParts`).
-/

namespace Footprint.Memory

variable {T : TypeTable} {P : Slot → Prop} {D : Prop} {m m' : Memory}

/-- The roots have plain names, no two the same. -/
structure RootsApart (m : Memory) : Prop where
  plain : ∀ a b, m.block? a = some b → b.parent = 0 → Path.Plain (m.varOf b.var).name.toList
  distinct : ∀ a a' b b', m.block? a = some b → m.block? a' = some b' → b.parent = 0 →
    b'.parent = 0 → (m.varOf b.var).name = (m.varOf b'.var).name → a = a'

/-- The name of the block at an address is plain, and no root elsewhere has it. -/
def Apart (m : Memory) (a : Nat) (b : Block) : Prop :=
  Path.Plain (m.varOf b.var).name.toList ∧ ∀ a' < m.blocks.size, ∀ b' ∈ m.block? a',
    b'.parent = 0 → (m.varOf b.var).name = (m.varOf b'.var).name → a = a'

instance decidableApart (m : Memory) (a : Nat) (b : Block) : Decidable (m.Apart a b) :=
  inferInstanceAs (Decidable (_ ∧ _))

/-- Only the blocks that there are need a look. -/
theorem rootsApart_iff (m : Memory) : m.RootsApart ↔
    ∀ a < m.blocks.size, ∀ b ∈ m.block? a, b.parent = 0 → m.Apart a b := by
  have hlt {a : Nat} {b : Block} (hb : m.block? a = some b) : a < m.blocks.size :=
    (Array.getElem?_eq_some_iff.mp (Option.join_eq_some_iff.mp hb)).1
  constructor
  · intro h a _ b hb hroot
    exact ⟨h.plain a b hb hroot, fun a' _ b' hb' => h.distinct a a' b b' hb hb' hroot⟩
  · intro h
    exact ⟨fun a b hb hroot => (h a (hlt hb) b hb hroot).1,
      fun a a' b b' hb hb' hroot => (h a (hlt hb) b hb hroot).2 a' (hlt hb') b' hb'⟩

instance (m : Memory) : Decidable m.RootsApart := decidable_of_iff _ (rootsApart_iff m).symm

/-- The address that slots lead to from an address, through the parts of blocks. -/
def along (m : Memory) : Nat → List Slot → Option Nat
  | a, [] => some a
  | a, s :: slots =>
    ((m.block? a).bind fun b => (m.varOf b.var).parts.get? s).bind fun c => m.along c slots

/-- The name is that of a root with slots after it, and they lead from the root to the address. -/
structure Reaches (m : Memory) (root : String) (slots : List Slot) (n : String) (a : Nat) :
    Prop where
  plainRoot : Path.Plain root.toList
  plainSlots : ∀ s ∈ slots, s.Plain
  written : n = Path.written root slots
  start : ∃ r b, m.address? root = some r ∧ m.block? r = some b ∧ b.parent = 0 ∧
    m.along r slots = some a

/-- Names lead to their addresses, every block has the address of its name, and only variables
with blocks have parts. -/
structure Rooted (m : Memory) : Prop where
  linked : Linked none m
  named : ∀ n a, m.address? n = some a → ∃ root slots, m.Reaches root slots n a
  address : ∀ a n, m.nameAt? a = some n → m.address? n = some a
  blank : ∀ id s c, (m.varOf id).parts.get? s = some c → ∃ a b, m.block? a = some b ∧ b.var = id

/-! ## Following slots -/

theorem along_append (m : Memory) (slots slots' : List Slot) (a : Nat) :
    m.along a (slots ++ slots') = (m.along a slots).bind fun c => m.along c slots' := by
  induction slots generalizing a with
  | nil => rfl
  | cons s slots ih =>
    simp only [List.cons_append, along, Option.bind_assoc]
    congr 1
    funext b
    congr 1
    funext c
    exact ih c

/-- Slots lead where they led, if blocks keep their variables and variables their parts. -/
theorem along_mono
    (hblock : ∀ a b, m.block? a = some b → ∃ b', m'.block? a = some b' ∧ b'.var = b.var)
    (hparts : ∀ a b s c, m.block? a = some b → (m.varOf b.var).parts.get? s = some c →
      (m'.varOf b.var).parts.get? s = some c) :
    ∀ {slots : List Slot} {a c : Nat}, m.along a slots = some c → m'.along a slots = some c
  | [], _, _, h => h
  | s :: slots, a, c, h => by
    obtain ⟨d, hd, hrest⟩ := Option.bind_eq_some_iff.mp h
    obtain ⟨b, hb, hpart⟩ := Option.bind_eq_some_iff.mp hd
    obtain ⟨b', hb', hvar⟩ := hblock a b hb
    have hpart' : (m'.varOf b'.var).parts.get? s = some d := hvar ▸ hparts a b s d hb hpart
    rw [along, hb', Option.bind_some, hpart', Option.bind_some]
    exact along_mono hblock hparts hrest

/-- The step picks the slot. -/
def Picks : Step → Slot → Prop
  | .member name, s => s = .member name
  | .index text, s => slotOf text = .ok (some s)
  | .broken, _ => False

variable {slots : List Slot} {a : Nat} {b : Block} {v : Variable} {id : VarId} {n : String}

theorem picks_step (h : ∀ s ∈ slots, s.Plain) : List.Forall₂ Picks (slots.map Slot.step) slots := by
  rw [List.forall₂_map_left_iff]
  refine List.forall₂_same.mpr fun s hs => ?_
  cases s with
  | member name => rfl
  | element i => exact Slot.slotOf_step (h _ hs) rfl
  | anyElement => exact Slot.slotOf_step (h _ hs) rfl

/-- A step through a part that is there. -/
theorem follow_part {c : Nat} {s : Slot} {step : Step} (T : TypeTable)
    (rest : List Step) (hpos : 0 < a) (hb : m.block? a = some b) (hs : Picks step s)
    (hc : (m.varOf b.var).parts.get? s = some c) :
    follow T a (step :: rest) m = follow T c rest m := by
  rw [follow]
  refine (bind_of_ok (variableAt_of_pos hpos hb)).trans ?_
  cases step with
  | member name =>
    cases hs
    simp only [hc]
  | index text =>
    refine (bind_of_ok (orFault_of_ok hs _)).trans ?_
    simp only [hc]
  | broken => exact hs.elim

/-- Steps are followed through the parts that they pick, whatever the names. -/
theorem follow_along (hl : Linked none m) (T : TypeTable) (names : Table String Nat) :
    ∀ {steps : List Step} {slots : List Slot} {a c : Nat}, List.Forall₂ Picks steps slots →
      m.along a slots = some c →
        follow T a steps { m with names } = .ok (some c) { m with names }
  | [], _, _, _, .nil, h => by
    cases h
    rfl
  | step :: steps, s :: slots, a, c, .cons hs hslots, h => by
    obtain ⟨d, hd, hrest⟩ := Option.bind_eq_some_iff.mp h
    obtain ⟨b, hb, hpart⟩ := Option.bind_eq_some_iff.mp hd
    exact (follow_part (m := { m with names }) T steps (hl.lt_next_of_block hb).1 hb hs hpart).trans
      (follow_along hl T names hslots hrest)

/-! ## What a rooted memory says -/

section Rooted

variable (h : Rooted m)

include h

variable {a : Nat}

/-- A plain name that has an address is that of a root. -/
theorem Rooted.root_of_plain {n : String} (hn : m.address? n = some a)
    (hplain : Path.Plain n.toList) :
    ∃ b, m.block? a = some b ∧ b.parent = 0 ∧ (m.varOf b.var).name = n := by
  obtain ⟨root, slots, hreach⟩ := h.named n a hn
  obtain ⟨r, b, _, hb, hparent, halong⟩ := hreach.start
  have hblank : ∀ s ∈ ([] : List Slot), s.Plain := fun _ hs => nomatch hs
  have hsame :=
    Path.written_inj hreach.plainRoot hplain hreach.plainSlots hblank hreach.written.symm
  rw [hsame.2] at halong
  cases halong
  refine ⟨b, hb, hparent, ?_⟩
  have hname := h.linked.name n a hn
  rw [nameAt?, hb] at hname
  exact Option.some.inj hname

/-- The slots that lead to the name of a part lead to the whole and then to the part. -/
theorem Rooted.part_of_named {b : Block} (hb : m.block? a = some b) {s : Slot}
    (hs : s.Plain) {c : Nat} (hc : m.address? ((m.varOf b.var).name ++ s.suffix) = some c) :
    (m.varOf b.var).parts.get? s = some c := by
  have hname : m.nameAt? a = some (m.varOf b.var).name := by rw [nameAt?, hb]; rfl
  obtain ⟨root, slots, hreach⟩ := h.named _ a (h.address a _ hname)
  obtain ⟨root', slots', hreach'⟩ := h.named _ c hc
  obtain ⟨r, _, hr, _, _, halong⟩ := hreach.start
  obtain ⟨r', _, hr', _, _, halong'⟩ := hreach'.start
  have hwritten : Path.written root (slots ++ [s]) = Path.written root' slots' := by
    rw [Path.written_append, ← hreach.written, hreach'.written]
  have hplain : ∀ s' ∈ slots ++ [s], s'.Plain := by
    intro s' hs'
    rcases List.mem_append.mp hs' with hs' | hs'
    · exact hreach.plainSlots s' hs'
    · cases List.mem_singleton.mp hs'
      exact hs
  obtain ⟨rfl, rfl⟩ :=
    Path.written_inj hreach.plainRoot hreach'.plainRoot hplain hreach'.plainSlots hwritten
  cases hr.symm.trans hr'
  rw [along_append, halong, Option.bind_some, along, hb, Option.bind_some] at halong'
  obtain ⟨d, hd, hsame⟩ := Option.bind_eq_some_iff.mp halong'
  cases hsame
  exact hd

theorem Rooted.part_absent {b : Block} (hb : m.block? a = some b) {s : Slot}
    (hs : s.Plain) (hnone : (m.varOf b.var).parts.get? s = none) :
    m.address? ((m.varOf b.var).name ++ s.suffix) = none := by
  cases hc : m.address? ((m.varOf b.var).name ++ s.suffix) with
  | none => rfl
  | some c =>
    rw [h.part_of_named hb hs hc] at hnone
    cases hnone

end Rooted

/-! ## Changes that leave names and parts -/

/-- Names and parts are the same, and blocks keep their parents and variables. -/
structure SameParts (m m' : Memory) : Prop where
  after : Linked none m → After m m'
  names : m'.names = m.names
  block : ∀ a, (m'.block? a).map (fun b => (b.parent, b.var)) =
    (m.block? a).map fun b => (b.parent, b.var)
  parts : ∀ id, (m'.varOf id).parts = (m.varOf id).parts

theorem sameParts_setVar (m : Memory) (id : VarId) {f : Variable → Variable}
    (hname : ∀ v, (f v).name = v.name) (hparts : ∀ v, (f v).parts = v.parts) :
    SameParts m (m.setVar id f) where
  after hl := (After.refl hl).setVar id hname hparts
  names := rfl
  block _ := rfl
  parts j := by
    rw [varOf_setVar]
    split
    · exact hparts _
    · rfl

theorem sameParts_declare (m : Memory) (hparts : v.parts = {}) :
    SameParts m { m with vars := m.vars.push v } where
  after hl := ⟨hl.declare hparts, grows_declare hl v⟩
  names := rfl
  block _ := rfl
  parts j := by
    rw [varOf_push]
    split
    · next hj =>
      rw [hparts, hj, varOf, Array.getElem?_eq_none (Nat.le_refl _)]
      rfl
    · rfl

theorem SameBlocks.sameParts (h : SameBlocks m m') : SameParts m m' where
  after hl := (After.refl hl).sameBlocks h
  names := h.names
  block a := by
    cases hb : m.block? a with
    | none => rw [h.noBlock a hb]
    | some b =>
      obtain ⟨b', hb', _, hparent, hvar⟩ := h.block a b hb
      rw [hb', Option.map_some, Option.map_some, hparent, hvar]
  parts id := by rw [h.varOf]

section SameParts

variable (h : SameParts m m')

include h

variable {a : Nat}

theorem SameParts.exists_block {b : Block} (hb : m.block? a = some b) :
    ∃ b', m'.block? a = some b' ∧ b'.parent = b.parent ∧ b'.var = b.var := by
  have hblock := h.block a
  rw [hb] at hblock
  obtain ⟨b', hb', heq⟩ := Option.map_eq_some_iff.mp hblock
  exact ⟨b', hb', congrArg Prod.fst heq, congrArg Prod.snd heq⟩

theorem SameParts.exists_block_before {b' : Block} (hb' : m'.block? a = some b') :
    ∃ b, m.block? a = some b ∧ b'.parent = b.parent ∧ b'.var = b.var := by
  have hblock := h.block a
  rw [hb'] at hblock
  obtain ⟨b, hb, heq⟩ := Option.map_eq_some_iff.mp hblock.symm
  exact ⟨b, hb, (congrArg Prod.fst heq).symm, (congrArg Prod.snd heq).symm⟩

theorem SameParts.along {slots : List Slot} {c : Nat} (hc : m.along a slots = some c) :
    m'.along a slots = some c := by
  refine along_mono (fun a b hb => ?_) (fun a b s c _ hpart => ?_) hc
  · obtain ⟨b', hb', _, hvar⟩ := h.exists_block hb
    exact ⟨b', hb', hvar⟩
  · rw [h.parts]
    exact hpart

theorem SameParts.rooted (hm : Rooted m) : Rooted m' where
  linked := (h.after hm.linked).linked
  named n a ha := by
    rw [address?, h.names] at ha
    obtain ⟨root, slots, hreach⟩ := hm.named n a ha
    obtain ⟨r, b, hr, hb, hparent, halong⟩ := hreach.start
    obtain ⟨b', hb', hparent', _⟩ := h.exists_block hb
    refine ⟨root, slots, hreach.plainRoot, hreach.plainSlots, hreach.written, r, b', ?_, hb',
      hparent'.trans hparent, h.along halong⟩
    rw [address?, h.names]
    exact hr
  address a n ha := by
    obtain ⟨b', hb', hname⟩ := Option.map_eq_some_iff.mp ha
    obtain ⟨b, hb, _, hvar⟩ := h.exists_block_before hb'
    have hsame := (h.after hm.linked).grows.var b.var (hm.linked.var_lt hb)
    rw [address?, h.names]
    refine hm.address a n ?_
    rw [nameAt?, hb, Option.map_some, ← hname, hvar, hsame]
  blank id s c hc := by
    rw [h.parts] at hc
    obtain ⟨a, b, hb, hvar⟩ := hm.blank id s c hc
    obtain ⟨b', hb', _, hvar'⟩ := h.exists_block hb
    exact ⟨a, b', hb', hvar'.trans hvar⟩

end SameParts

/-! ## Roots stay -/

/-- What is a root stays one and keeps its name. -/
def KeepsRoots (m m' : Memory) : Prop :=
  ∀ a b, m.block? a = some b → b.parent = 0 →
    ∃ b', m'.block? a = some b' ∧ b'.parent = 0 ∧ (m'.varOf b'.var).name = (m.varOf b.var).name

theorem KeepsRoots.refl (m : Memory) : KeepsRoots m m := fun _ b hb hp => ⟨b, hb, hp, rfl⟩

theorem KeepsRoots.trans {m'' : Memory} (h : KeepsRoots m m') (h' : KeepsRoots m' m'') :
    KeepsRoots m m'' := by
  intro a b hb hparent
  obtain ⟨b', hb', hparent', hname⟩ := h a b hb hparent
  obtain ⟨b'', hb'', hparent'', hname'⟩ := h' a b' hb' hparent'
  exact ⟨b'', hb'', hparent'', hname'.trans hname⟩

/-- The roots have plain names. -/
def RootsPlain (m : Memory) : Prop :=
  ∀ a b, m.block? a = some b → b.parent = 0 → Path.Plain (m.varOf b.var).name.toList

theorem rootsPlain_iff (m : Memory) : m.RootsPlain ↔ ∀ a < m.blocks.size, ∀ b ∈ m.block? a,
    b.parent = 0 → Path.Plain (m.varOf b.var).name.toList :=
  ⟨fun h a _ => h a, fun h a b hb =>
    h a (Array.getElem?_eq_some_iff.mp (Option.join_eq_some_iff.mp hb)).1 b hb⟩

instance (m : Memory) : Decidable m.RootsPlain := decidable_of_iff _ (rootsPlain_iff m).symm

theorem RootsPlain.before (h : m'.RootsPlain) (hk : KeepsRoots m m') : m.RootsPlain := by
  intro a b hb hparent
  obtain ⟨b', hb', hparent', hname⟩ := hk a b hb hparent
  exact hname ▸ h a b' hb' hparent'

theorem RootsApart.before (h : m'.RootsApart) (hk : KeepsRoots m m') : m.RootsApart where
  plain := RootsPlain.before h.plain hk
  distinct a₁ a₂ b₁ b₂ hb₁ hb₂ hparent₁ hparent₂ hname := by
    obtain ⟨b₁', hb₁', hparent₁', hname₁⟩ := hk a₁ b₁ hb₁ hparent₁
    obtain ⟨b₂', hb₂', hparent₂', hname₂⟩ := hk a₂ b₂ hb₂ hparent₂
    exact h.distinct a₁ a₂ b₁' b₂' hb₁' hb₂' hparent₁' hparent₂' (by rw [hname₁, hname₂, hname])

theorem SameParts.keepsRoots (h : SameParts m m') (hl : Linked none m) : KeepsRoots m m' := by
  intro a b hb hparent
  obtain ⟨b', hb', hparent', hvar⟩ := h.exists_block hb
  refine ⟨b', hb', hparent'.trans hparent, ?_⟩
  rw [hvar]
  exact (h.after hl).grows.var b.var (hl.var_lt hb)

theorem Changes.keepsRoots (h : Changes T P D m m') (hl : Linked none m) : KeepsRoots m m' :=
  fun _ b hb hparent =>
    ⟨b, Changes.block h hb, hparent, (Changes.after h hl).grows.var _ (hl.var_lt hb)⟩

theorem keepsRoots_withRoot (m : Memory) (id : VarId) : KeepsRoots m (m.withRoot id) :=
  fun _ b hb hparent => ⟨b, block?_withBlock_of_some hb _ _ _, hparent, rfl⟩

/-! ## A new root -/

/-- A new root has a new name. -/
theorem Rooted.root_absent (h : Rooted m) (hroots : (m.withRoot id).RootsApart) :
    m.address? (m.varOf id).name = none := by
  cases ha : m.address? (m.varOf id).name with
  | none => rfl
  | some a =>
    have hnew := block?_withRoot h.linked id
    obtain ⟨b, hb, hparent, hname⟩ := h.root_of_plain ha (hroots.plain _ _ hnew rfl)
    have hold := block?_withBlock_of_some hb (m.varOf id).name 0 id
    have hsame := hroots.distinct _ _ _ _ hold hnew hparent rfl hname
    exact absurd hsame (Nat.ne_of_lt (h.linked.lt_next_of_block hb).2)

/-- Only a variable without a block can become a root. -/
theorem Rooted.root_blank (h : Rooted m) (hroots : (m.withRoot id).RootsApart)
    (s : Slot) : (m.varOf id).parts.get? s = none := by
  cases hc : (m.varOf id).parts.get? s with
  | none => rfl
  | some c =>
    obtain ⟨a, b, hb, rfl⟩ := h.blank id s c hc
    have hname : m.nameAt? a = some (m.varOf b.var).name := by rw [nameAt?, hb]; rfl
    have habsent := h.root_absent hroots
    rw [h.address a _ hname] at habsent
    cases habsent

theorem address?_withBlock_of_some {name : String} (ha : m.address? n = some a)
    (habsent : m.address? name = none) (parent : Nat) (id : VarId) :
    (m.withBlock name parent id).address? n = some a := by
  have hne : name ≠ n := by
    rintro rfl
    rw [habsent] at ha
    cases ha
  rw [address?_withBlock, if_neg hne]
  exact ha

theorem Reaches.mono {root : String}
    (h : m.Reaches root slots n a)
    (haddress : ∀ r, m.address? root = some r → m'.address? root = some r)
    (hblock : ∀ a b, m.block? a = some b → m'.block? a = some b)
    (hparts : ∀ a b s c, m.block? a = some b → (m.varOf b.var).parts.get? s = some c →
      (m'.varOf b.var).parts.get? s = some c) : m'.Reaches root slots n a := by
  obtain ⟨r, b, hr, hb, hparent, halong⟩ := h.start
  exact ⟨h.plainRoot, h.plainSlots, h.written, r, b, haddress r hr, hblock r b hb, hparent,
    along_mono (fun a b hb => ⟨b, hblock a b hb, rfl⟩) hparts halong⟩

/-- A new root leaves the memory rooted. -/
theorem Rooted.withRoot (h : Rooted m) (hid : id < m.vars.size)
    (hroots : (m.withRoot id).RootsApart) : Rooted (m.withRoot id) := by
  have habsent := h.root_absent hroots
  have hnew := block?_withRoot h.linked id
  have hkept : ∀ {n a}, m.address? n = some a → (m.withRoot id).address? n = some a :=
    fun ha => address?_withBlock_of_some ha habsent 0 id
  refine ⟨h.linked.withRoot hid, fun n a ha => ?_, fun a n ha => ?_, fun j s c hc => ?_⟩
  · rw [Memory.withRoot, address?_withBlock] at ha
    split at ha
    · next hn =>
      cases ha
      subst hn
      have hstart : (m.withRoot id).address? (m.varOf id).name = some m.next := by
        rw [Memory.withRoot, address?_withBlock, if_pos rfl]
      exact ⟨_, [], hroots.plain _ _ hnew rfl, (fun _ hs => absurd hs List.not_mem_nil),
        rfl, m.next, _,
        hstart, hnew, rfl, rfl⟩
    · obtain ⟨root, slots, hreach⟩ := h.named n a ha
      exact ⟨root, slots, hreach.mono (fun _ => hkept)
        (fun _ _ hb => block?_withBlock_of_some hb _ _ _) fun _ _ _ _ _ hc => hc⟩
  · rw [Memory.withRoot, nameAt?_withBlock h.linked rfl] at ha
    split at ha
    · next hnext =>
      cases ha
      rw [Memory.withRoot, address?_withBlock, if_pos rfl, hnext]
    · exact hkept (h.address a n ha)
  · obtain ⟨a, b, hb, hvar⟩ := h.blank j s c hc
    exact ⟨a, b, block?_withBlock_of_some hb _ _ _, hvar⟩

/-! ## A new part -/

/-- A block is added for the part of a block at a slot. -/
structure Added (m m' : Memory) (a : Nat) (b : Block) (s : Slot) : Prop where
  next : m'.next = m.next + 1
  address : ∀ n, m'.address? n =
    if (m.varOf b.var).name ++ s.suffix = n then some m.next else m.address? n
  new : m'.nameAt? m.next = some ((m.varOf b.var).name ++ s.suffix)
  part : (m'.varOf b.var).parts.get? s = some m.next
  parts : ∀ id s' c, (m'.varOf id).parts.get? s' = some c →
    id = b.var ∨ (m.varOf id).parts.get? s' = some c

/-- A new part adds one block and one name. -/
theorem added_withPart (hl : Linked none m) (hb : m.block? a = some b) (s : Slot)
    (hname : v.name = (m.varOf b.var).name ++ s.suffix) (hparts : v.parts = {}) :
    Added m ((m.notePart b.var s m.next).withPart ((m.varOf b.var).name ++ s.suffix) a v) a b
      s where
  next := rfl
  address n := by
    rw [withPart, address?_withBlock]
    rfl
  new := by
    have hnew := block?_withPart_next (m := m.notePart b.var s m.next) hl.next
      ((m.varOf b.var).name ++ s.suffix) a v
    have hvar : ((m.notePart b.var s m.next).withPart ((m.varOf b.var).name ++ s.suffix) a v).varOf
        (m.notePart b.var s m.next).vars.size = v := by rw [varOf_withPart, if_pos rfl]
    refine (congrArg (Option.map _) hnew).trans ?_
    rw [Option.map_some, hvar, hname]
  part := by
    have hvar := hl.var_lt hb
    rw [varOf_withPart, size_notePart, if_neg (Nat.ne_of_lt hvar), varOf_notePart,
      if_pos ⟨rfl, hvar⟩]
    simp
  parts id s' c hc := by
    rw [varOf_withPart] at hc
    split at hc
    · rw [hparts] at hc
      cases hc
    · rw [varOf_notePart] at hc
      split at hc
      · next hid => exact .inl hid.1.symm
      · exact .inr hc

/-- Every block has the name that it had, or is the new one. -/
theorem Added.nameAt? {s : Slot} (h : Added m m' a b s) (hl : Linked none m)
    (hafter : After m m') {c : Nat} (hn : m'.nameAt? c = some n) :
    m.nameAt? c = some n ∨ c = m.next ∧ n = (m.varOf b.var).name ++ s.suffix := by
  obtain ⟨hpos, hlt⟩ := hafter.linked.lt_next hn
  rw [h.next] at hlt
  rcases Nat.lt_succ_iff_lt_or_eq.mp hlt with hlt | rfl
  · obtain ⟨b', hb', _⟩ := hl.block c hpos hlt
    have hname := nameAt?_of_block hb'
    rw [hafter.grows.name c _ hname] at hn
    exact .inl (hname.trans hn)
  · exact .inr ⟨rfl, Option.some.inj (hn.symm.trans h.new)⟩

/-- An addition leaves the names alone, or adds one. -/
theorem Change.names (h : Change T P D m m') (hl : Linked none m) :
    (m'.names = m.names ∧ ∀ c, m'.nameAt? c = m.nameAt? c) ∨
    ∃ a b s, m.block? a = some b ∧ P s ∧ (D → (m.varOf b.var).parts.get? s = none) ∧
      (s.IsElement → m.address? ((m.varOf b.var).name ++ s.suffix) = none) ∧ Added m m' a b s := by
  cases h with
  | note => exact .inl ⟨rfl, nameAt?_setVar m _ fun _ => rfl⟩
  | @add a b s type hb hp _ hnone habsent =>
    exact .inr ⟨a, b, s, hb, hp, hnone, habsent, added_withPart hl hb s rfl rfl⟩

theorem Change.address?_isSome (h : Change T P D m m') (hl : Linked none m)
    (hn : (m.address? n).isSome) : (m'.address? n).isSome := by
  rcases h.names hl with ⟨hnames, _⟩ | ⟨_, _, _, _, _, _, _, hadded⟩
  · rw [address?, hnames]
    exact hn
  · rw [hadded.address]
    split
    · rfl
    · exact hn

/-- A new part leaves the memory rooted.  An element that is there under its name would be a part
already. -/
theorem Change.rooted (h : Change T Slot.Plain True m m') (hm : Rooted m) : Rooted m' := by
  have hafter := h.after hm.linked
  have hblock := fun a b (hb : m.block? a = some b) => h.block hb
  have hparts : ∀ a b s c, m.block? a = some b → (m.varOf b.var).parts.get? s = some c →
      (m'.varOf b.var).parts.get? s = some c := by
    intro a b s c hb hc
    obtain ⟨c', hc', hsame⟩ := (h.var (hm.linked.var_lt hb)).part s c hc
    rw [hc', hsame trivial]
  have hadded : ∃ a b s, m.block? a = some b ∧ s.Plain ∧ (m.varOf b.var).parts.get? s = none ∧
      Added m m' a b s := by
    cases h with
    | note hb hp hnone hc =>
      rw [hm.part_absent hb hp hnone] at hc
      cases hc
    | @add a b s type hb hp _ hnone _ =>
      exact ⟨a, b, s, hb, hp, hnone trivial, added_withPart hm.linked hb s rfl rfl⟩
  obtain ⟨a, b, s, hb, hp, hnone, hadded⟩ := hadded
  have habsent := hm.part_absent hb hp hnone
  have hkept : ∀ {n c}, m.address? n = some c → m'.address? n = some c := by
    intro n c hc
    rw [hadded.address, if_neg, hc]
    rintro rfl
    rw [habsent] at hc
    cases hc
  have hname : m.nameAt? a = some (m.varOf b.var).name := by rw [nameAt?, hb]; rfl
  refine ⟨hafter.linked, fun n c hc => ?_, fun c n hc => ?_, fun id s' c hc => ?_⟩
  · rw [hadded.address] at hc
    split at hc
    · next hn =>
      -- the slots that lead to the whole, and the new one
      cases hc
      obtain ⟨root, slots, hreach⟩ := hm.named _ a (hm.address a _ hname)
      have hreach' := hreach.mono (fun _ => hkept) hblock hparts
      obtain ⟨r, b', hr, hb', hparent, halong⟩ := hreach'.start
      refine ⟨root, slots ++ [s], hreach.plainRoot, ?_, ?_, r, b', hr, hb', hparent, ?_⟩
      · intro s' hs'
        rcases List.mem_append.mp hs' with hs' | hs'
        · exact hreach.plainSlots s' hs'
        · cases List.mem_singleton.mp hs'
          exact hp
      · rw [Path.written_append, ← hreach.written, hn]
      · rw [along_append, halong, Option.bind_some, along, hblock a b hb, Option.bind_some,
          hadded.part]
        rfl
    · obtain ⟨root, slots, hreach⟩ := hm.named n c hc
      exact ⟨root, slots, hreach.mono (fun _ => hkept) hblock hparts⟩
  · rcases hadded.nameAt? hm.linked hafter hc with hold | ⟨rfl, rfl⟩
    · exact hkept (hm.address c n hold)
    · rw [hadded.address, if_pos rfl]
  · rcases hadded.parts id s' c hc with rfl | hc
    · exact ⟨a, b, hblock a b hb, rfl⟩
    · obtain ⟨a', b', hb', hvar⟩ := hm.blank id s' c hc
      exact ⟨a', b', hblock a' b' hb', hvar⟩

theorem Changes.rooted (h : Changes T Slot.Plain True m m') (hm : Rooted m) : Rooted m' := by
  induction h with
  | refl => exact hm
  | tail _ hchange ih => exact hchange.rooted ih

theorem rooted_empty : Rooted {} where
  linked := linked_empty
  named _ _ h := nomatch h
  address a n h := by
    obtain ⟨b, hb, _⟩ := Option.map_eq_some_iff.mp h
    cases a with
    | zero => cases hb
    | succ a => cases hb
  blank id s c h := by
    rw [varOf, Array.getElem?_eq_none (Nat.zero_le _)] at h
    cases h

end Footprint.Memory
