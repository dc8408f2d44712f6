import Mathlib.Data.List.ReduceOption
import Footprint.Proofs.Addresses.Entry
import Footprint.Proofs.Call.Pointers
import Footprint.Proofs.Memory.Names
import Footprint.Proofs.Memory.Refs

/-!
# Own variables behind globals

A plain name in a body may be that of a global variable and of a variable of the
function.  The key of a pointer is looked for among the own variables first, but
an address among the globals first.  So an own pointer is followed and moved
where its name says so, but an own variable that is no pointer is out of reach:
every use of its name is noted for the global.

`Hides` is what keeps it out of reach.  No pointer leads to its block, no
function is known to use it, and the global is there.  A walk keeps this,
whatever the body does, so in the end the function has no use of the variable.
-/

namespace Footprint

open StraightLine (IsName ownedName_inj ownedName_plain)

theorem not_hasSteps_ownedName {f x : String} (hf : IsName f) (hx : IsName x) :
    ¬ HasSteps (ownedName f x) := by
  rintro (hmem | hmem)
  · exact (ownedName_plain hf hx _ hmem).1 rfl
  · exact (ownedName_plain hf hx _ hmem).2.1 rfl

/-- The variable is no pointer, and the function does not use it. -/
structure Variable.Spared (f : String) (v : Variable) : Prop where
  plain : v.isPointer = false
  unused : ¬ v.UsedBy f

namespace Memory

variable {f x X : String} {m m' : Memory}

/-- The address of a block with another name. -/
def OtherThan (X : String) (m : Memory) (a : Int) : Prop := m.Owns a ∧ m.nameAt? a.toNat ≠ some X

theorem OtherThan.grows {a : Int} (h : m.OtherThan X a) (hg : Grows m m') : m'.OtherThan X a := by
  obtain ⟨howns, hne⟩ := h
  refine ⟨howns.grows hg, ?_⟩
  obtain ⟨_, b, hb⟩ := howns
  have hname : m.nameAt? a.toNat = some (m.varOf b.var).name := by rw [nameAt?, hb]; rfl
  rw [hg.name _ _ hname, ← hname]
  exact hne

/-- The global `x` has an address.  The own variable `x` of `f` is no pointer and has no mark of
`f`.  It is not recorded as a pointer, and no variable remembers its block. -/
structure Hides (f x : String) (m : Memory) : Prop where
  global : (m.address? x).isSome
  own : ∀ id, (m.varOf id).name = ownedName f x → (m.varOf id).Spared f
  refs : ∀ a, ¬ m.RefAt a (ownedName f x)
  target : ∀ id t, (m.varOf id).target = some t → m.OtherThan (ownedName f x) t

/-- The same in a memory whose addresses are those of blocks. -/
structure Hiding (f x : String) (m : Memory) : Prop extends Hides f x m where
  aimed : m.Aimed

/-- A step on the memory that keeps a variable hidden. -/
abbrev HidesIn {α : Type} (f x : String) (m₀ : Memory) (V : α → Memory → Prop) (y : MemM α) :
    Prop :=
  Minds (Hiding f x) (fun m => m) m₀ V y

/-- After a change that makes no variable remember anything new. -/
theorem Hiding.after (h : m.Hiding f x) (ha : m'.Aimed) (hg : Grows m m')
    (hglobal : (m'.address? x).isSome)
    (hown : ∀ id, (m'.varOf id).name = ownedName f x → (m'.varOf id).Spared f)
    (hrefs : ∀ a, m'.RefAt a (ownedName f x) → m.RefAt a (ownedName f x))
    (htarget : ∀ id, (m'.varOf id).target = (m.varOf id).target) : m'.Hiding f x :=
  ⟨⟨hglobal, hown, fun a hr => h.refs a (hrefs a hr),
    fun id t ht => (h.target id t (htarget id ▸ ht)).grows hg⟩, ha⟩

variable {T : TypeTable} {P : Slot → Prop} {D : Prop}

theorem Change.hides (hX : ¬ HasSteps (ownedName f x)) (h : Change T P D m m')
    (hm : m.Hiding f x) : m'.Hiding f x := by
  have hafter := h.after hm.aimed.linked
  refine hm.after (hm.aimed.after hafter h.target) hafter.grows
    (h.address?_isSome hm.aimed.linked hm.global) ?_
    (fun a => h.refAt.mp) h.target
  intro id hname
  rcases h.varOf id with ⟨parts, hvar⟩ | hsteps
  · rw [hvar] at hname ⊢
    obtain ⟨hplain, hunused⟩ := hm.own id hname
    exact ⟨hplain, hunused⟩
  · exact absurd (hname ▸ hsteps) hX

theorem Changes.hides (hX : ¬ HasSteps (ownedName f x)) (h : Changes T P D m m')
    (hm : m.Hiding f x) : m'.Hiding f x := by
  induction h with
  | refl => exact hm
  | tail _ hchange ih => exact hchange.hides hX ih

/-- A change of a variable with another name keeps the own variable hidden. -/
theorem Hiding.setVar (hm : m.Hiding f x) {id : VarId} {g : Variable → Variable}
    (hid : (m.varOf id).name ≠ ownedName f x) (hg : ∀ v, (g v).unmarked = v.unmarked) :
    (m.setVar id g).Hiding f x := by
  have hmark : Marked m (m.setVar id g) := (Marked.refl hm.aimed.linked).setVar id hg
  have hsame := fun j => Variable.eq_of_unmarked (g := Variable.name) (hmark.var j) fun _ => rfl
  refine hm.after (hmark.aimed hm.aimed) hmark.grows hm.global (fun j hname => ?_) (fun _ hr => hr)
    fun j => Variable.eq_of_unmarked (g := Variable.target) (hmark.var j) fun _ => rfl
  have hne : id ≠ j := by
    rintro rfl
    exact hid ((hsame id).symm.trans hname)
  have hother : (m.setVar id g).varOf j = m.varOf j := by rw [varOf_setVar, if_neg fun h => hne h.1]
  rw [hother] at hname ⊢
  exact hm.own j hname

/-! ## Deciding it -/

instance (X : String) (m : Memory) (a : Int) : Decidable (m.OtherThan X a) :=
  decidable_of_iff ((0 < a ∧ (m.block? a.toNat).isSome) ∧ m.nameAt? a.toNat ≠ some X)
    (and_congr_left' (and_congr_right' Option.isSome_iff_exists))

instance (X : String) (m : Memory) (target : Option Int) :
    Decidable (∀ t, target = some t → m.OtherThan X t) :=
  decidable_of_iff (∀ t ∈ target, m.OtherThan X t) Iff.rfl

instance (f : String) (v : Variable) : Decidable (v.Spared f) :=
  decidable_of_iff (v.isPointer = false ∧ ¬ (f ∈ v.readers ∨ f ∈ v.writers))
    ⟨fun h => ⟨h.1, h.2⟩, fun h => ⟨h.plain, h.unused⟩⟩

/-- Every variable is one of the list, or has the empty name and no target. -/
theorem forall_varOf {p : Variable → Prop} (hnone : p default) (m : Memory) :
    (∀ id, p (m.varOf id)) ↔ ∀ v ∈ m.vars.toList, p v := by
  constructor
  · intro h v hv
    obtain ⟨id, hid⟩ := Array.getElem?_of_mem (Array.mem_toList_iff.mp hv)
    have hvar := h id
    rwa [varOf, hid] at hvar
  · intro h id
    rw [varOf]
    cases hv : m.vars[id]? with
    | none => exact hnone
    | some v => exact h v (Array.mem_toList_iff.mpr (Array.mem_of_getElem? hv))

/-- Every block is one of the list. -/
theorem forall_block? {p : Block → Prop} (m : Memory) :
    (∀ a b, m.block? a = some b → p b) ↔ ∀ b ∈ m.blocks.toList.reduceOption, p b := by
  constructor
  · intro h b hb
    rw [List.reduceOption_mem_iff] at hb
    obtain ⟨a, ha⟩ := Array.getElem?_of_mem (Array.mem_toList_iff.mp hb)
    exact h a b (by rw [block?, ha]; rfl)
  · intro h a b hb
    have hmem : some b ∈ m.blocks := Array.mem_of_getElem? (block?_eq_some hb)
    exact h b (List.reduceOption_mem_iff.mpr (Array.mem_toList_iff.mpr hmem))

theorem hides_iff : m.Hides f x ↔ (m.address? x).isSome ∧
    (∀ v ∈ m.vars.toList, v.name = ownedName f x → v.Spared f) ∧
    (∀ b ∈ m.blocks.toList.reduceOption, ownedName f x ∉ b.pointers) ∧
    ∀ v ∈ m.vars.toList, ∀ t, v.target = some t → m.OtherThan (ownedName f x) t := by
  have hown := forall_varOf (p := fun v => v.name = ownedName f x → v.Spared f)
    (fun he => absurd he.symm (StraightLine.ownedName_ne_empty f x)) m
  have htarget := forall_varOf
    (p := fun v => ∀ t, v.target = some t → m.OtherThan (ownedName f x) t) nofun m
  have hrefs := forall_block? (p := fun b => ownedName f x ∉ b.pointers) m
  rw [← hown, ← htarget, ← hrefs]
  constructor
  · intro h
    exact ⟨h.global, h.own, fun a b hb hp => h.refs a ⟨b, hb, hp⟩, h.target⟩
  · rintro ⟨hglobal, hown, hrefs, htarget⟩
    exact ⟨hglobal, hown, fun a ⟨b, hb, hp⟩ => hrefs a b hb hp, htarget⟩

instance (f x : String) (m : Memory) : Decidable (m.Hides f x) := decidable_of_iff _ hides_iff.symm

/-! ## Steps on the memory -/

section Marks

variable {m₀ : Memory} {g : Variable → Variable} (hg : ∀ v, (g v).unmarked = v.unmarked)

include hg

theorem markAt_other {a : Nat} {b : Block} (hm : m.Hiding f x) (hmark : Marked m₀ m)
    (hb : m.block? a = some b) (hname : (m.varOf b.var).name ≠ ownedName f x) :
    Runs (markAt g a) m fun _ m' => m'.Hiding f x ∧ Marked m₀ m' :=
  .bind_ok (heldAt_ok hm.aimed.linked hb)
    (Ends.modify ⟨hm.setVar hname hg, hmark.setVar b.var hg⟩)

/-- Some pointers get a mark.  The own variable is none of them. -/
theorem markPointers_other : ∀ {ps : List String} {m : Memory}, (∀ p ∈ ps, p ≠ ownedName f x) →
    m.Hiding f x → Marked m₀ m →
    Runs (markPointers g ps) m fun _ m' => m'.Hiding f x ∧ Marked m₀ m'
  | [], _, _, hm, hmark => .pure ⟨hm, hmark⟩
  | p :: ps, m, hps, hm, hmark => by
    obtain ⟨hp, hps⟩ := List.forall_mem_cons.mp hps
    refine Runs.bind (Q := fun _ m' => m'.Hiding f x ∧ Marked m₀ m') (.bind_ok rfl ?_)
      fun _ _ hm' => markPointers_other hps hm'.1 hm'.2
    cases ha : m.address? p with
    | none => exact .pure ⟨hm, hmark⟩
    | some a =>
      obtain ⟨b, hb, hname⟩ := Option.map_eq_some_iff.mp (hm.aimed.linked.name p a ha)
      exact markAt_other hg hm hmark hb (by rw [hname]; exact hp)

/-- The pointers of a block get a mark, and the block itself. -/
theorem markBlock_other {a : Nat} {b : Block} (hm : m.Hiding f x) (hb : m.block? a = some b)
    (hname : (m.varOf b.var).name ≠ ownedName f x) :
    Runs (do markPointers g (m.refs a).toList; markAt g a) m fun _ m' =>
      m'.Hiding f x ∧ Marked m m' := by
  have hps : ∀ p ∈ (m.refs a).toList, p ≠ ownedName f x := by
    rintro p hp rfl
    obtain ⟨c, hc⟩ := exists_refAt m a hp
    exact hm.refs c hc
  refine Runs.bind (markPointers_other hg hps hm (.refl hm.aimed.linked)) ?_
  rintro _ m' ⟨hm', hmark⟩
  obtain ⟨b', hb', hvar⟩ := hmark.exists_block hb
  refine markAt_other hg hm' hmark hb' ?_
  rw [hvar, Variable.eq_of_unmarked (g := Variable.name) (hmark.var b.var) fun _ => rfl]
  exact hname

end Marks

section Steps

variable {m₀ : Memory}

theorem hides_of_marked {y : MemM Unit}
    (h : ∀ m, m.Hiding f x → Grows m₀ m → Runs y m fun _ m' => m'.Hiding f x ∧ Marked m m') :
    HidesIn f x m₀ (fun _ _ => True) y :=
  ⟨fun m hm hg => Ends.mono (h m hm hg)
    (fun _ _ ⟨hm', hmark⟩ => ⟨hm', hmark.grows, trivial⟩) fun _ _ hf => hf.elim⟩

/-- A lookup of any name. -/
theorem hides_resolve (hX : ¬ HasSteps (ownedName f x)) (T : TypeTable) (name : String) :
    HidesIn f x m₀ (fun found m => ∀ c : Nat, found = some c → m.Owns c ∧
      ∃ n, m.nameAt? c = some n ∧ (n = name ∨ HasSteps n)) (resolve T name) := by
  constructor
  intro m hm _
  refine (resolve_named T name hm.aimed.linked).mono ?_ ?_
  · rintro found m' ⟨hchanges, hfound⟩
    have hafter := hchanges.after hm.aimed.linked
    refine ⟨hchanges.hides hX hm, hafter.grows, fun c hc => ?_⟩
    obtain ⟨n, hn, hcases⟩ := hfound c hc
    exact ⟨hafter.linked.owns_named (Option.isSome_of_eq_some hn), n, hn, hcases⟩
  · rintro e m' ⟨he, hchanges⟩
    exact ⟨he, fun hne => ⟨(hchanges hne).hides hX hm,
      ((hchanges hne).after hm.aimed.linked).grows⟩⟩

variable {a : Int} {id : VarId}

/-- The variable at an address.  If it is a pointer, it is not the own variable. -/
theorem hides_variableAt (ha : m₀.Owns a) :
    HidesIn f x m₀ (fun found m => ∀ id v, found = some (id, v) →
      m.nameAt? a.toNat = some v.name ∧ (id < m.vars.size ∧ m.varOf id = v) ∧
        (v.isPointer → v.name ≠ ownedName f x) ∧
        ∀ t, v.target = some t → m.OtherThan (ownedName f x) t) (variableAt a) := by
  constructor
  intro m hm hg
  obtain ⟨n, rfl, b, hb⟩ := (ha.grows hg).exists_nat
  refine .of_ok (variableAt_ok hm.aimed.linked hb) ⟨hm, .refl _, ?_⟩
  rintro _ _ ⟨⟩
  refine ⟨by rw [Int.toNat_natCast, nameAt?, hb]; rfl, ⟨hm.aimed.linked.var_lt hb, rfl⟩,
    fun hp hname => ?_, hm.target b.var⟩
  rw [(hm.own b.var hname).plain] at hp
  cases hp

/-- A variable with another name gets a mark. -/
theorem hides_change {g : Variable → Variable} (hid : id < m₀.vars.size)
    (hname : (m₀.varOf id).name ≠ ownedName f x) (hg : ∀ v, (g v).unmarked = v.unmarked) :
    HidesIn f x m₀ (fun _ _ => True) (change id g) := by
  refine hides_of_marked fun m hm hgrows => Ends.modify ⟨hm.setVar ?_ hg, ?_⟩
  · rw [hgrows.var id hid]
    exact hname
  · exact (Marked.refl hm.aimed.linked).setVar id hg

section At

variable {a : Int} (ha : m₀.OtherThan (ownedName f x) a)

include ha

theorem OtherThan.exists_block {m : Memory} (hg : Grows m₀ m) :
    ∃ (n : Nat) (b : Block), a = n ∧ m.block? n = some b ∧
    (m.varOf b.var).name ≠ ownedName f x := by
  obtain ⟨howns, hne⟩ := ha.grows hg
  obtain ⟨n, rfl, b, hb⟩ := howns.exists_nat
  refine ⟨n, b, rfl, hb, fun hname => hne ?_⟩
  rw [Int.toNat_natCast, nameAt?, hb, Option.map_some, hname]

theorem hides_read : HidesIn f x m₀ (fun _ _ => True) (read a f) := by
  refine hides_of_marked fun m hm hg => ?_
  obtain ⟨n, b, rfl, hb, hname⟩ := ha.exists_block hg
  refine .bind_ok (heldAt_ok hm.aimed.linked hb) (.bind_ok rfl ?_)
  split
  · exact .pure ⟨hm, .refl hm.aimed.linked⟩
  · exact markBlock_other (unmarked_markRead f) hm hb hname

theorem hides_write : HidesIn f x m₀ (fun _ _ => True) (write a f) := by
  refine hides_of_marked fun m hm hg => ?_
  obtain ⟨n, b, rfl, hb, hname⟩ := ha.exists_block hg
  exact .bind_ok (heldAt_ok hm.aimed.linked hb) (.bind_ok rfl
    (markBlock_other (unmarked_markWrite f) hm hb hname))

end At

/-- The pointers that are recorded at a block change, and the own variable is not added. -/
theorem Hiding.withRefs (hm : m.Hiding f x) {a : Nat} {b : Block} (hb : m.block? a = some b)
    {g : NameSet → NameSet}
    (hg : ∀ c, (m.withRefs a g).RefAt c (ownedName f x) → m.RefAt c (ownedName f x)) :
    (m.withRefs a g).Hiding f x ∧ Marked m (m.withRefs a g) := by
  have hmark : Marked m (m.withRefs a g) :=
    (Marked.refl hm.aimed.linked).sameBlocks (sameBlocks_setPointers hb g)
  have hvars : (m.withRefs a g).vars = m.vars := (sameBlocks_setPointers hb g).vars
  have hsame : ∀ id, (m.withRefs a g).varOf id = m.varOf id := fun id => by rw [varOf, hvars]; rfl
  refine ⟨hm.after (hmark.aimed hm.aimed) hmark.grows ?_ (fun id => ?_) hg fun id => by rw [hsame],
    hmark⟩
  · rw [address?, hmark.names]
    exact hm.global
  · rw [hsame]
    exact hm.own id

theorem hides_addRef (ha : m₀.Owns a) {key : String} (hkey : key ≠ ownedName f x) :
    HidesIn f x m₀ (fun _ _ => True) (addRef a key) := by
  refine hides_of_marked fun m hm hg => ?_
  obtain ⟨n, rfl, b, hb⟩ := (ha.grows hg).exists_nat
  refine .of_ok (addRef_eq hm.aimed.linked hb key) (hm.withRefs hb fun c hr => ?_)
  exact ((refAt_insert hb).mp hr).resolve_left fun h => hkey h.2.symm

theorem hides_removeRef (ha : m₀.Owns a) (key : String) :
    HidesIn f x m₀ (fun _ _ => True) (removeRef a key) := by
  refine hides_of_marked fun m hm hg => ?_
  obtain ⟨n, rfl, b, hb⟩ := (ha.grows hg).exists_nat
  exact .of_ok (removeRef_eq hm.aimed.linked hb key)
    (hm.withRefs hb fun c hr => (refAt_erase.mp hr).1)

/-- A variable is made to remember a block with another name. -/
theorem hides_remember (id : VarId) {target : Option Int}
    (ht : ∀ t, target = some t → m₀.OtherThan (ownedName f x) t) :
    HidesIn f x m₀ (fun _ _ => True) (change id fun v => { v with target }) := by
  constructor
  intro m hm hg
  have hgrows : Grows m (m.setVar id fun v => { v with target }) := grows_setVar m id fun _ => rfl
  have haimed := ((minds_remember id fun t h => (ht t h).1 : MindsIn m₀ _ _).ends m hm.aimed
    hg).value _ _ rfl
  refine Ends.modify ⟨⟨⟨hm.global, fun j hname => ?_, hm.refs, fun j t hj => ?_⟩, haimed.1⟩,
    hgrows, trivial⟩
  · rw [varOf_setVar] at hname ⊢
    split
    · next he =>
      rw [if_pos he] at hname
      obtain ⟨hplain, hunused⟩ := hm.own j hname
      exact ⟨hplain, hunused⟩
    · next he =>
      rw [if_neg he] at hname
      exact hm.own j hname
  · rw [varOf_setVar] at hj
    split at hj
    · exact (ht t hj).grows (hg.trans hgrows)
    · exact (hm.target j t hj).grows hgrows

/-- A new variable is declared.  If it is the own one, it is no pointer. -/
theorem hides_declare {v : Variable} (hv : v.Blank) (htarget : v.target = none)
    (hown : v.name = ownedName f x → v.isPointer = false) :
    HidesIn f x m₀ (fun id m => id < m.vars.size ∧ m.varOf id = v) (declare v) := by
  constructor
  intro m hm _
  have hrest := ((minds_declare hv.parts htarget).ends m hm.aimed (.refl _)).value _ _ rfl
  refine .of_ok rfl ⟨hm.after hrest.1 hrest.2.1 hm.global ?_ (fun _ hr => hr) ?_, hrest.2⟩
  · intro id hname
    rw [varOf_push] at hname ⊢
    split
    · next he =>
      rw [if_pos he] at hname
      exact ⟨hown hname, hv.not_usedBy f⟩
    · next he =>
      rw [if_neg he] at hname
      exact hm.own id hname
  · intro id
    rw [varOf_push]
    split
    · next he => rw [htarget, target_of_le (Nat.le_of_eq he.symm)]
    · rfl

/-- A declared variable is laid out. -/
theorem hides_allocateRoot (hX : ¬ HasSteps (ownedName f x)) (T : TypeTable)
    (hid : id < m₀.vars.size) : HidesIn f x m₀ (fun _ _ => True) (allocateRoot T id) := by
  constructor
  intro m hm hg
  have hid := Nat.lt_of_lt_of_le hid hg.vars
  have hgroot := grows_withRoot hm.aimed.linked id
  have hroot : (m.withRoot id).Hiding f x := by
    refine hm.after (hm.aimed.withRoot hid) hgroot ?_ hm.own (fun _ => (refAt_withBlock ..).mp)
      fun _ => rfl
    show (Table.get? (Table.set _ _ _) x).isSome
    rw [Table.get?_set]
    split
    · rfl
    · exact hm.global
  refine (allocateRoot_completes (admits_all T) hm.aimed.linked hid False.elim).mono ?_ ?_
  · rintro _ m' ⟨_, m₁, hcompletes, _, _, rfl⟩
    have hm₁ := hcompletes.changes.hides hX hroot
    have hg₁ := hgroot.trans (hcompletes.changes.after hroot.aimed.linked).grows
    have hset := (After.refl hm₁.aimed.linked).setVar id
      (f := fun v => { v with address := m.next }) (fun _ => rfl) fun _ => rfl
    have hsame : ∀ j, ∃ address, (m₁.setVar id fun v => { v with address := m.next }).varOf j =
        { m₁.varOf j with address } := by
      intro j
      rw [varOf_setVar]
      split
      · exact ⟨_, rfl⟩
      · exact ⟨_, rfl⟩
    have htarget : ∀ j, ((m₁.setVar id fun v => { v with address := m.next }).varOf j).target =
        (m₁.varOf j).target := by
      intro j
      obtain ⟨_, hj⟩ := hsame j
      rw [hj]
    refine ⟨hm₁.after (hm₁.aimed.after hset htarget) hset.grows hm₁.global (fun j hname => ?_)
      (fun _ hr => hr) htarget, hg₁.trans hset.grows, trivial⟩
    obtain ⟨_, hj⟩ := hsame j
    rw [hj] at hname ⊢
    obtain ⟨hplain, hunused⟩ := hm₁.own j hname
    exact ⟨hplain, hunused⟩
  · rintro e m' ⟨he, hchanges⟩
    exact ⟨he, fun hne => ⟨(hchanges hne).hides hX hroot,
      hgroot.trans ((hchanges hne).after hroot.aimed.linked).grows⟩⟩

end Steps

/-- The record of a function does not know of a variable: no use is noted, and no pointer that the
function leaves is the variable or leads to it. -/
structure Ignores (X : String) (m : Memory) (g : Function) : Prop where
  reads : X ∉ g.reads
  writes : X ∉ g.writes
  ends : ∀ e ∈ g.pointerEnds.entries, m.OtherThan X (e.1 : Nat) ∧ ∀ t, e.2 = some t →
    m.OtherThan X t

theorem Ignores.grows {g : Function} (h : m.Ignores X g) (hg : Grows m m') : m'.Ignores X g :=
  ⟨h.reads, h.writes, fun e he =>
    ⟨(h.ends e he).1.grows hg, fun t ht => ((h.ends e he).2 t ht).grows hg⟩⟩

instance (X : String) (m : Memory) (g : Function) : Decidable (m.Ignores X g) :=
  decidable_of_iff (X ∉ g.reads ∧ X ∉ g.writes ∧ ∀ e ∈ g.pointerEnds.entries,
      m.OtherThan X (e.1 : Nat) ∧ ∀ t, e.2 = some t → m.OtherThan X t)
    ⟨fun h => ⟨h.1, h.2.1, h.2.2⟩, fun h => ⟨h.reads, h.writes, h.ends⟩⟩

end Memory

namespace Walk

open Memory (Grows)

variable {f x : String}

/-- The own variable `x` of `f` is out of reach while a body is walked. -/
structure Hides (f x : String) (w : Walk) : Prop where
  memory : w.memory.Hides f x
  pointers : ∀ e ∈ w.pointers.entries, e.1 ≠ ownedName f x ∧
    ∀ t, e.2 = some t → w.memory.OtherThan (ownedName f x) t
  functions : ∀ g ∈ w.functions, w.memory.Ignores (ownedName f x) g

instance (f x : String) (w : Walk) : Decidable (w.Hides f x) :=
  decidable_of_iff (w.memory.Hides f x ∧ (∀ e ∈ w.pointers.entries, e.1 ≠ ownedName f x ∧
      ∀ t, e.2 = some t → w.memory.OtherThan (ownedName f x) t) ∧
      ∀ g ∈ w.functions, w.memory.Ignores (ownedName f x) g)
    ⟨fun h => ⟨h.1, h.2.1, h.2.2⟩, fun h => ⟨h.memory, h.pointers, h.functions⟩⟩

/-- The same in a memory whose addresses are those of blocks. -/
structure Hiding (f x : String) (w : Walk) : Prop extends Hides f x w where
  aimed : w.memory.Aimed

theorem Hiding.inMemory {w : Walk} (h : w.Hiding f x) : w.memory.Hiding f x := ⟨h.memory, h.aimed⟩

/-- The node does not spell the own name out, and it does not declare the own variable as a
pointer. -/
structure Leaves (f x : String) (i : NodeInfo) : Prop where
  spelled : i.kind = .declRef → i.spelling ≠ ownedName f x
  plain : i.kind = .varDecl → i.spelling = x → ∀ t, i.type = some t →
    t.shape ≠ .pointer ∧ t.canonical ≠ .pointer

instance (f x : String) (i : NodeInfo) : Decidable (Leaves f x i) :=
  decidable_of_iff ((i.kind = .declRef → i.spelling ≠ ownedName f x) ∧
      (i.kind = .varDecl → i.spelling = x → ∀ t ∈ i.type, t.shape ≠ .pointer ∧
        t.canonical ≠ .pointer))
    ⟨fun h => ⟨h.1, h.2⟩, fun h => ⟨h.spelled, h.plain⟩⟩

/-- What keeps the own variable out of reach. -/
def shadowing (f x : String) : Growing where
  state w := w.Hiding f x
  address m a := m.OtherThan (ownedName f x) a
  name _ n := n ≠ ownedName f x
  node := Leaves f x
  grows_address h hg := h.grows hg
  grows_name h _ := h

section Steps

variable {s : Scope} {x : String} {m₀ : Memory}

/-- A step in a body that keeps the own variable hidden. -/
abbrev HidesIn {α : Type} (s : Scope) (x : String) (m₀ : Memory) (V : α → Memory → Prop)
    (y : WalkM α) : Prop :=
  Minds (Hiding s.name x) memory m₀ V y

theorem hides_onMemory {α : Type} {V : α → Memory → Prop} {y : MemM α}
    (hy : Memory.HidesIn s.name x m₀ V y) : HidesIn s x m₀ V (onMemory y) := by
  refine hy.zoom (fun _ => rfl) (fun _ hw => hw.inMemory) (fun m w hw hm hg => ?_) fun _ _ => rfl
  refine ⟨⟨hm.toHides, fun e he => ?_, fun g hg' => (hw.functions g hg').grows hg⟩, hm.aimed⟩
  exact ⟨(hw.pointers e he).1, fun t ht => ((hw.pointers e he).2 t ht).grows hg⟩

theorem hides_pure {α : Type} (a : α) : HidesIn s x m₀ (fun _ _ => True) (pure a) :=
  .pure fun _ _ => trivial

theorem hides_changeRoot {g : Function → Function}
    (hg : ∀ r m, Grows m₀ m → m.Ignores (ownedName s.name x) r →
      m.Ignores (ownedName s.name x) (g r)) :
    HidesIn s x m₀ (fun _ _ => True) (changeRoot s g) := by
  refine .modify (fun w hw hgrows => ⟨⟨hw.memory, hw.pointers, ?_⟩, hw.aimed⟩) fun _ => rfl
  exact forall_mem_modify hw.functions fun r => hg r _ hgrows

theorem hides_noteName (use : Use) {name : String} (hn : name ≠ ownedName s.name x) :
    HidesIn s x m₀ (fun _ _ => True) (noteName s use name) := by
  have hother {set : NameSet} (h : ownedName s.name x ∉ set) :
      ownedName s.name x ∉ set.insert name := by
    rw [NameSet.mem_insert]
    rintro (he | hmem)
    · exact hn he.symm
    · exact h hmem
  cases use with
  | read => exact hides_changeRoot fun _ _ _ hr => ⟨hother hr.reads, hr.writes, hr.ends⟩
  | write => exact hides_changeRoot fun _ _ _ hr => ⟨hr.reads, hother hr.writes, hr.ends⟩

theorem hides_handles :
    Handles s (Hiding s.name x) (Memory.OtherThan (ownedName s.name x))
      fun _ n => n ≠ ownedName s.name x where
  later_address h hg := h.grows hg
  later_name h _ := h
  variableAt ha :=
    (hides_onMemory (Memory.hides_variableAt ha.1)).mono fun found m hg hv id v hf => by
    obtain ⟨hname, hvar, _, htarget⟩ := hv id v hf
    exact ⟨hvar, fun he => (ha.grows hg).2 (hname.trans (congrArg some he)), htarget⟩
  read ha := hides_onMemory (Memory.hides_read ha)
  write ha := hides_onMemory (Memory.hides_write ha)
  change hid hname hg := hides_onMemory (Memory.hides_change hid hname hg)
  noteName use hn := hides_noteName use hn
  setEnd hp ht := hides_changeRoot fun g m hg hr => by
    refine ⟨hr.reads, hr.writes, fun e he => ?_⟩
    rcases Table.mem_entries_set he with rfl | he
    · exact ⟨hp.grows hg, fun t h => (ht t h).grows hg⟩
    · exact hr.ends e he
  written _ hw := ⟨⟨hw.memory, hw.pointers, hw.functions⟩, hw.aimed⟩

theorem hides_share (name : String) : HidesIn s x m₀ (fun _ _ => True) (share s name) :=
  does_share (fun _ => hides_changeRoot fun _ _ _ hr => ⟨hr.reads, hr.writes, hr.ends⟩) name

variable {key : String} {target : Option Int}

theorem hides_setTarget (hkey : key ≠ ownedName s.name x)
    (ht : ∀ t, target = some t → m₀.OtherThan (ownedName s.name x) t) :
    HidesIn s x m₀ (fun _ _ => True) (setTarget key target) := by
  refine .modify (fun w hw hg => ⟨⟨hw.memory, fun e he => ?_, hw.functions⟩, hw.aimed⟩) fun _ => rfl
  rcases Table.mem_entries_set he with rfl | he
  · exact ⟨hkey, fun t h => (ht t h).grows hg⟩
  · exact hw.pointers e he

theorem hides_dropRef (key : String)
    (ht : ∀ t, target = some t → m₀.OtherThan (ownedName s.name x) t) :
    HidesIn s x m₀ (fun _ _ => True) (dropRef key target) := by
  cases target with
  | none => exact hides_pure _
  | some t => exact hides_onMemory (Memory.hides_removeRef (ht t rfl).1 key)

theorem hides_noteRef (hkey : key ≠ ownedName s.name x)
    (ht : ∀ t, target = some t → m₀.OtherThan (ownedName s.name x) t) :
    HidesIn s x m₀ (fun _ _ => True) (noteRef key target) := by
  cases target with
  | none => exact hides_pure _
  | some t => exact hides_onMemory (Memory.hides_addRef (ht t rfl).1 hkey)

/-- The target that a pointer has in this body. -/
theorem hides_currentTarget (key : String) :
    HidesIn s x m₀ (fun target m => ∀ t, target = some t → m.OtherThan (ownedName s.name x) t)
      (currentTarget key) := by
  refine .get_bind fun w hw _ => .pure fun m hg t ht => ?_
  exact ((hw.pointers _ (Table.mem_of_lookup (Option.join_eq_some_iff.mp ht))).2 t rfl).grows hg

theorem exists_of_remembered {known : Option (VarId × Variable)} {t : Int}
    (h : remembered known = some t) : ∃ v, known = some v ∧ v.2.target = some t := by
  cases known with
  | none => cases h
  | some v =>
    unfold remembered at h
    dsimp only at h
    split at h
    · exact ⟨v, rfl, (Option.filter_eq_some_iff.mp h).1⟩
    · cases h

theorem hides_typeOf (i : NodeInfo) :
    HidesIn s x m₀ (fun t _ => i.type = some t) (typeOf i) := by
  unfold typeOf
  split
  · next t ht => exact .pure fun _ _ => ht
  · exact .throw id

theorem addressIn_global {w : Walk} {n : String} {a : Nat} (s : Scope) (hn : n ≠ "")
    (ha : w.memory.address? n = some a) : addressIn s n w = .ok (some a) w :=
  (bind_of_ok (onMemory_ok (Memory.resolve_known s.types hn ha))).trans rfl

section Lookups

variable (hX : ¬ HasSteps (ownedName s.name x))

include hX

variable {name key : String}

/-- A name that is not the own one does not lead to the own variable. -/
theorem hides_addressOf (hn : name ≠ ownedName s.name x) :
    HidesIn s x m₀ (fun found m => ∀ c : Nat, found = some c → m.OtherThan (ownedName s.name x) c)
      (addressOf s name) := by
  refine (hides_onMemory (Memory.hides_resolve hX s.types name)).mono fun found m _ h c hc => ?_
  obtain ⟨howns, n, hname, hcases⟩ := h c hc
  refine ⟨howns, ?_⟩
  rw [Int.toNat_natCast, hname]
  rintro ⟨⟩
  rcases hcases with he | hsteps
  · exact hn he.symm
  · exact hX hsteps

/-- The key of a pointer is not the own variable. -/
theorem hides_pointerKey :
    HidesIn s x m₀ (fun found _ => ∀ key, found = some key → key ≠ ownedName s.name x)
      (pointerKey s name) := by
  refine finds_pointerKey (fun _ => ?_) (fun hw _ he => (hw.pointers _ he).1) fun h _ => h
  refine finds_pointerNamed ((hides_onMemory (Memory.hides_resolve hX s.types _)).mono
    fun _ _ _ h c hc => (h c hc).1) (fun ha => ?_) fun h _ => h
  exact (hides_onMemory (Memory.hides_variableAt ha)).mono fun _ _ _ hv id v hf =>
    (hv id v hf).2.2.1

theorem hides_variableOf (hkey : key ≠ ownedName s.name x) :
    HidesIn s x m₀ (fun found m => ∀ id v, found = some (id, v) →
      ∀ t, v.target = some t → m.OtherThan (ownedName s.name x) t) (variableOf s key) := by
  refine .bind (hides_addressOf hX hkey) fun a m₁ _ ha => ?_
  cases a with
  | none => exact .pure fun _ _ _ _ h => nomatch h
  | some a =>
    exact (hides_handles.variableAt (ha a rfl)).mono fun _ _ _ hv id v hf => (hv id v hf).2.2

theorem hides_addressIn (hx : IsName x) (hn : name ≠ ownedName s.name x) :
    HidesIn s x m₀ (fun found m => ∀ c : Nat, found = some c → m.OtherThan (ownedName s.name x) c)
      (addressIn s name) := by
  by_cases hname : name = x
  · -- the global is there, so the own variable is not looked for
    subst hname
    constructor
    intro w hw _
    obtain ⟨a, ha⟩ := Option.isSome_iff_exists.mp hw.memory.global
    refine .of_ok (addressIn_global s hx.1 ha) ⟨hw, .refl _, fun c hc => ?_⟩
    cases hc
    have hnamed := hw.aimed.linked.name _ _ ha
    refine ⟨hw.aimed.linked.owns_named (Option.isSome_of_eq_some hnamed), ?_⟩
    rw [Int.toNat_natCast, hnamed]
    exact fun he => hn (Option.some.inj he)
  · refine .bind (hides_addressOf hX hn) fun found m₁ _ hfound => ?_
    cases found with
    | some a => exact .pure fun _ hg c hc => (hfound c hc).grows hg
    | none => exact hides_addressOf hX fun he => hname (ownedName_inj.mp he)

theorem hides_repoint (hkey : key ≠ ownedName s.name x) {target : Option Int}
    (ht : ∀ t, target = some t → m₀.OtherThan (ownedName s.name x) t) :
    HidesIn s x m₀ (fun _ _ => True) (repoint s key target) := by
  refine .bind (hides_currentTarget key) fun current m₁ hg₁ hcurrent => ?_
  refine .bind (hides_variableOf hX hkey) fun known m₂ hg₂ hknown => ?_
  have ht₂ := fun t h => (ht t h).grows (hg₁.trans hg₂)
  refine .bind (hides_dropRef key fun t h => ?_) fun _ m₃ hg₃ _ => ?_
  · cases current with
    | some c =>
      cases h
      exact (hcurrent t rfl).grows hg₂
    | none =>
      obtain ⟨v, hv, htarget⟩ := exists_of_remembered h
      exact hknown v.1 v.2 hv t htarget
  · have ht₃ := fun t h => (ht₂ t h).grows hg₃
    refine .bind (hides_setTarget hkey ht₃) fun _ m₄ hg₄ _ => ?_
    have ht₄ := fun t h => (ht₃ t h).grows hg₄
    refine .bind (does_remember (fun id => hides_onMemory (Memory.hides_remember id ht₄)) known)
      fun _ m₅ hg₅ _ => ?_
    exact hides_noteRef hkey fun t h => (ht₄ t h).grows hg₅

theorem hides_declared {i : NodeInfo} (hi : Leaves s.name x i) (hk : i.kind = .varDecl) :
    HidesIn s x m₀
      (fun t _ => t.shape = .pointer → ownedName s.name i.spelling ≠ ownedName s.name x)
      (declared s i) := by
  have hplain : ∀ t, i.type = some t → ownedName s.name i.spelling = ownedName s.name x →
      t.shape ≠ .pointer ∧ t.canonical ≠ .pointer :=
    fun t ht he => hi.plain hk (ownedName_inj.mp he) t ht
  refine .bind (V := fun _ _ => True) ?_ fun _ m₁ _ _ => ?_
  · refine .bind (hides_onMemory (Memory.hides_resolve hX s.types _)) fun a _ _ _ => ?_
    cases a with
    | some a => exact hides_pure _
    | none =>
      refine .bind (hides_typeOf i) fun t _ _ ht => ?_
      refine .bind (hides_onMemory (Memory.hides_declare ⟨rfl, rfl, rfl⟩ rfl fun he => ?_))
        fun id _ _ hid => ?_
      · exact decide_eq_false (hplain t ht he).2
      · exact .bind (hides_onMemory (Memory.hides_allocateRoot hX s.types hid.1)) fun _ _ _ _ =>
          hides_pure _
  · refine .bind (hides_typeOf i) fun t _ _ ht => ?_
    have hother : t.shape = .pointer → ownedName s.name i.spelling ≠ ownedName s.name x :=
      fun hp he => (hplain t ht he).1 hp
    split
    · next hp =>
      exact .bind (hides_setTarget (hother hp) nofun) fun _ _ _ _ => .pure fun _ _ => hother
    · exact .pure fun _ _ => hother

/-- A walk over a body keeps the own variable out of reach. -/
theorem sound_shadowing (hx : IsName x) (calls : CallIndex) (m₀ : Memory) :
    ((shadowing s.name x).guard m₀).Sound calls s fun _ => True where
  extend {m n rest} hn hrest := by
    rcases hasSteps_pathEnd n hrest with rfl | hsteps
    · rw [String.append_empty]
      exact hn
    · rintro he
      exact hX (he ▸ hsteps)
  spelled hi hk := hi.spelled hk
  callee {w i id g} _ _ _ _ hw hg := by
    have hignores := hw.1.functions g (Array.mem_of_getElem? hg)
    refine ⟨⟨fun n hn _ he => ?_, fun e he => hignores.ends e he⟩, fun _ => trivial⟩
    subst he
    rcases hn with hn | hn
    · exact hignores.reads hn
    · exact hignores.writes hn
  reads := trivial
  assigns _ _ _ := trivial
  addressOf hn := Growing.passes (hides_addressOf hX hn)
  addressIn hn := Growing.passes (hides_addressIn hX hx hn)
  variableAt ha := Growing.passes
    ((hides_handles.variableAt ha).mono fun _ _ _ hv id v hf => (hv id v hf).2)
  pointerKey _ := Growing.passes (hides_pointerKey hX)
  target {w} hw key t ht :=
    (hw.1.pointers _ (Table.mem_of_lookup (Option.join_eq_some_iff.mp ht))).2 t rfl
  mark {_ _ use} _ ha := Growing.passes (hides_handles.mark ha use)
  markItself {_ _ use} _ ha := Growing.passes (hides_handles.markItself ha use)
  share n := Growing.passes (hides_share n)
  repoint hkey ht := Growing.passes (hides_repoint hX hkey ht)
  declared hi hk _ := Growing.passes (hides_declared hX hi hk)

theorem hides_noteEnds : ∀ {m₀ : Memory} {ends : List (String × Option Int)},
    (∀ e ∈ ends, e.1 ≠ ownedName s.name x ∧
      ∀ t, e.2 = some t → m₀.OtherThan (ownedName s.name x) t) →
    HidesIn s x m₀ (fun _ _ => True) (Analysis.noteEnds s ends)
  | _, [], _ => hides_pure _
  | _, (key, target) :: ends, h => by
    obtain ⟨hfirst, hrest⟩ := List.forall_mem_cons.mp h
    refine .bind (hides_handles.noteEnd (hides_addressOf hX hfirst.1) hfirst.2) fun _ _ hg _ =>
      hides_noteEnds fun e he => ?_
    exact ⟨(hrest e he).1, fun t ht => ((hrest e he).2 t ht).grows hg⟩

/-- Whatever a function with a body does keeps the own variable out of reach. -/
theorem perform_hides (hx : IsName x) (calls : CallIndex) {f : Function} {body : Node}
    (hbody : f.body = some body) (hnodes : body.Every (Leaves s.name x)) {w : Walk}
    (hw : w.Hiding s.name x) :
    Ends (Analysis.perform calls s f) w (fun _ w' => w'.Hiding s.name x)
      fun e w' => e ≠ .endless → w'.Hiding s.name x := by
  refine Ends.bind ?_
  rw [Analysis.performBody, hbody]
  refine (Growing.walkBody (sound_shadowing hX hx calls) hnodes hw).mono ?_ fun _ _ h => h
  intro _ w₁ hw₁
  have hrest : HidesIn s x w₁.memory (fun _ _ => True) (do
      changeRoot s fun f => { f with pointerEnds := {} }
      Analysis.noteEnds s (← get).pointers.entries) := by
    refine .bind (hides_changeRoot fun _ _ _ hr => ?_) fun _ _ _ _ => ?_
    · exact ⟨hr.reads, hr.writes, fun _ he => absurd he List.not_mem_nil⟩
    exact .get_bind fun w₂ hw₂ _ => hides_noteEnds hX hw₂.pointers
  exact (hrest.ends w₁ hw₁ (.refl _)).mono (fun _ _ h => h.1) fun _ _ h hne => (h.2 hne).1

end Lookups

/-- The key of a pointer is looked for among the own variables first. -/
theorem pointerKey_own {w : Walk} (hl : Memory.Linked none w.memory) (hx : IsName x)
    (hp : w.memory.PointerNamed (ownedName s.name x)) :
    pointerKey s x w = .ok (some (ownedName s.name x)) w := by
  obtain ⟨a, b, ha, hb, hpointer⟩ := hp.pointer
  have hname : (w.memory.varOf b.var).name = ownedName s.name x := by
    have hname := hl.name _ a ha
    rw [Memory.nameAt?, hb] at hname
    exact Option.some.inj hname
  have hnamed : pointerNamed s (ownedName s.name x) w = .ok (some (ownedName s.name x)) w := by
    refine (bind_of_ok (onMemory_ok (Memory.resolve_known s.types hp.nonempty ha))).trans ?_
    refine (bind_of_ok (onMemory_ok (Memory.variableAt_ok hl hb))).trans ?_
    dsimp only
    rw [if_pos hpointer, hname]
    rfl
  have hne : ¬ x.isEmpty = true := by simpa using hx.1
  unfold pointerKey
  rw [if_neg hne]
  exact bind_of_ok hnamed

end Steps

end Walk

namespace Project

/-- A name that a function shares with a global variable.  As the key of a pointer it means the own
pointer.  As the name of a place it means the global.  So where the own variable is no pointer, and
nothing leads to it when the body starts, the function is never noted as a user of it. -/
theorem shadowed_name {f x : String} (hf : IsName f) (hx : IsName x) :
    (∀ (s : Scope) (w : Walk), s.name = f → w.memory.Aimed →
      w.memory.PointerNamed (ownedName f x) →
      Walk.pointerKey s x w = .ok (some (ownedName f x)) w) ∧
    (∀ (s : Scope) (w : Walk) (a : Nat), w.memory.address? x = some a →
      Walk.addressIn s x w = .ok (some a) w) ∧
    ∀ {fs : Files} {path : String} {p p' : Project} {id : Nat} {g : Function} {body : Node}
      {s : Scope} {w : Walk}, Reached fs path p → p.record? id = some g → g.name.plain = f →
      g.body = some body → body.Every (Walk.Leaves f x) →
      Analysis.Enters p.types id p.analysis s w → w.Hides f x → Leads (analyse id) p p' →
      (∀ h ∈ p'.analysis.functions, ownedName f x ∉ h.reads ∧ ownedName f x ∉ h.writes) ∧
      ∀ a, p'.analysis.memory.address? (ownedName f x) = some a →
        ¬ p'.analysis.memory.UsedAt a f := by
  refine ⟨?_, fun s w a ha => Walk.addressIn_global s hx.1 ha, ?_⟩
  · rintro s w rfl haimed hpointer
    exact Walk.pointerKey_own haimed.linked hx hpointer
  · rintro fs path p p' id g body s w hp hg rfl hbody hnodes henters hstart hleads
    have hs : s.name = g.name.plain := by
      obtain ⟨g', _, _, hg', _, rfl, _⟩ := henters.rest
      cases hg.symm.trans hg'
      rfl
    rw [← hs] at hf hnodes hstart ⊢
    have hstart : w.Hiding s.name x := ⟨hstart, (henters.aimed hp.aimed.analysis).memory⟩
    obtain ⟨w', hw', hleft⟩ := leads_of_enters henters hg
      (Walk.perform_hides (not_hasSteps_ownedName hf hx) hx _ hbody hnodes hstart) hleads
    refine ⟨fun h hh => ?_, fun a ha hused => ?_⟩
    · rw [hleft.functions] at hh
      exact ⟨(hw'.functions h hh).reads, (hw'.functions h hh).writes⟩
    · rw [hleft.memory] at ha hused
      obtain ⟨b, hb, hused⟩ := hused
      have hnamed := hw'.aimed.linked.name _ a ha
      rw [Memory.nameAt?, hb] at hnamed
      exact (hw'.memory.own b.var (Option.some.inj hnamed)).unused hused

/-! ## A variable that is hidden -/

/-- The tree of `x = 1`. -/
def setX : Node := Walk.between "=" (Walk.named "x") Walk.one

/-- The tree of `*q = x`. -/
def setTargetOfQ : Node :=
  Walk.between "=" (Walk.leading "*" (Walk.named "q")) (Walk.named "x")

/-- A file with a scalar `x`, a pointer `q`, and a function `f(int *q)` with the body
`int x; x = 1; *q = x;`. -/
def shadows : Files := Walk.fileOf
  [Walk.intVar "x", Walk.intPointer "q",
    Walk.definedAs "f" [Walk.declarationOf .paramDecl "q" "int *" .pointer, Walk.intVar "x", setX,
      setTargetOfQ]]

/-- The project before the function is analysed, the start of its body, and the project after it. -/
def shadowsRun? : Option (Project × Function × Scope × Walk × Project) :=
  (after? (prepare shadows (shadows.absolute "p") {})).bind fun p =>
    (p.record? 0).bind fun g => (Analysis.enter? p.types 0 p.analysis).bind fun (s, w) =>
      (after? (analyse 0 p)).map fun p' => (p, g, s, w, p')

/-- The own variable is hidden in the body of the function, and the own pointer is found. -/
theorem exists_shadowsRun : ∃ p g body s w p', Reached shadows "p" p ∧ p.record? 0 = some g ∧
    g.name.plain = "f" ∧ g.body = some body ∧ body.Every (Walk.Leaves "f" "x") ∧
    Analysis.Enters p.types 0 p.analysis s w ∧ w.Hides "f" "x" ∧ analyse 0 p = .ok ⟨⟩ p' ∧
    s.name = "f" ∧ w.memory.PointerNamed "<f>q" := by
  have hrun : (shadowsRun?.bind fun (_, g, s, w, _) => g.body.map fun body =>
      decide (g.name.plain = "f" ∧ body.Every (Walk.Leaves "f" "x") ∧ w.Hides "f" "x" ∧
        s.name = "f" ∧ ((w.memory.address? "<f>q").bind fun a => (w.memory.block? a).map fun b =>
          (w.memory.varOf b.var).isPointer) = some true)) = some true := by decide +kernel
  obtain ⟨⟨p, g, s, w, p'⟩, hr, hchecks⟩ := Option.bind_eq_some_iff.mp hrun
  obtain ⟨body, hbody, hchecks⟩ := Option.map_eq_some_iff.mp hchecks
  obtain ⟨hname, hnodes, hhides, hs, hpointer⟩ := of_decide_eq_true hchecks
  obtain ⟨_, hprepare, hr⟩ := ok_of_bind hr
  obtain ⟨_, hg, hr⟩ := Option.bind_eq_some_iff.mp hr
  obtain ⟨⟨_, _⟩, henter, hr⟩ := Option.bind_eq_some_iff.mp hr
  obtain ⟨_, hanalyse, hr⟩ := ok_of_map hr
  cases hr
  obtain ⟨a, ha, hb⟩ := Option.bind_eq_some_iff.mp hpointer
  obtain ⟨b, hb, hp⟩ := Option.map_eq_some_iff.mp hb
  exact ⟨p, g, body, s, w, p', .read hprepare, hg, hname, hbody, hnodes,
    Analysis.enters_of_enter? henter, hhides, hanalyse, hs,
    by decide, by decide, by decide, a, b, ha, hb, hp⟩

theorem shadowed_name_shadows : IsName "f" ∧ IsName "x" ∧ IsName "q" ∧
    ∃ p g body s w p', Reached shadows "p" p ∧ p.record? 0 = some g ∧ g.name.plain = "f" ∧
      g.body = some body ∧ body.Every (Walk.Leaves "f" "x") ∧
      Analysis.Enters p.types 0 p.analysis s w ∧ w.Hides "f" "x" ∧ analyse 0 p = .ok ⟨⟩ p' ∧
      Walk.pointerKey s "q" w = .ok (some "<f>q") w ∧
      (∀ h ∈ p'.analysis.functions, "<f>x" ∉ h.reads ∧ "<f>x" ∉ h.writes) ∧
      ∀ a, p'.analysis.memory.address? "<f>x" = some a → ¬ p'.analysis.memory.UsedAt a "f" := by
  have hf : IsName "f" := by decide
  have hx : IsName "x" := by decide
  have hq : IsName "q" := by decide
  obtain ⟨p, g, body, s, w, p', hp, hg, hname, hbody, hnodes, henters, hhides, hanalyse, hs,
    hpointer⟩ := exists_shadowsRun
  have haimed := (henters.aimed hp.aimed.analysis).memory
  obtain ⟨_, _, hunused⟩ := shadowed_name hf hx
  refine ⟨hf, hx, hq, p, g, body, s, w, p', hp, hg, hname, hbody, hnodes, henters, hhides, hanalyse,
    (shadowed_name hf hq).1 s w hs haimed hpointer, ?_⟩
  exact hunused hp hg hname hbody hnodes henters hhides (.inl ⟨_, hanalyse⟩)

/-- The functions that write the variable with a name. -/
def writersOf? (p : Project) (name : String) : Option NameSet :=
  ((p.analysis.memory.address? name).bind p.analysis.memory.block?).map fun b =>
    (p.analysis.memory.varOf b.var).writers

/-- The function sets its own variable, and is noted as a writer of the global. -/
theorem shadows_global_written : ∃ p₀ p f, prepare shadows (shadows.absolute "p") {} = .ok ⟨⟩ p₀ ∧
    analyse 0 p₀ = .ok ⟨⟩ p ∧ p.record? 0 = some f ∧ f.name = .text "f" ∧
    f.writes = ⟨["<f>q__pointee", "x"]⟩ ∧ p.writersOf? "x" = some ⟨["f"]⟩ ∧
    p.writersOf? "<f>x" = some {} := by
  have hrun : firstRun? shadows (fun _ p f =>
      (f.name, f.writes, p.writersOf? "x", p.writersOf? "<f>x")) =
      some (.text "f", ⟨["<f>q__pointee", "x"]⟩, some ⟨["f"]⟩, some {}) := by
    decide +kernel
  obtain ⟨p₀, p, f, hprepare, hanalyse, hf, hvalues⟩ := exists_of_firstRun? hrun
  simp only [Prod.mk.injEq] at hvalues
  obtain ⟨hname, hwrites, hglobal, hown⟩ := hvalues
  exact ⟨p₀, p, f, hprepare, hanalyse, hf, hname, hwrites, hglobal, hown⟩

end Project

end Footprint
