import Mathlib.Order.Bounds.Basic
import Footprint.Proofs.StraightLine.Analysis
import Footprint.Proofs.Subscripts

/-!
# Pointer parameters used as arrays

A scan sets flags and lengths of pointer parameters, one node after the other.
A flag stays set and a length only grows.  So what a scan leaves behind is given
by the uses that there are in the tree (`Noted`), in whatever order and however
often they are met.

The variables of the functions that are called are read all the while.  They are
other variables than the pointer parameters that are changed, so they stay as
they were.
-/

namespace Footprint.Scan

open Node

/-! ## What was noted -/

/-- The memory `m` is `m₀` with some uses of variables as arrays noted.  A use may need a length. -/
structure Noted (U : VarId → Option Int → Prop) (m₀ m : Memory) : Prop where
  rest : { m with vars := m₀.vars } = m₀
  size : m.vars.size = m₀.vars.size
  fields : ∀ id, ∃ used length,
    m.varOf id = { m₀.varOf id with usedAsArray := used, usedLength := length }
  flagged : ∀ id < m₀.vars.size, (m.varOf id).usedAsArray = true ↔
    (m₀.varOf id).usedAsArray = true ∨ ∃ length, U id length
  length : ∀ id < m₀.vars.size,
    IsGreatest {l | l = (m₀.varOf id).usedLength ∨ U id (some l)} (m.varOf id).usedLength

section Noted

variable {U V : VarId → Option Int → Prop} {m₀ m m' : Memory}

theorem Noted.start (m : Memory) : Noted (fun _ _ => False) m m where
  rest := rfl
  size := rfl
  fields _ := ⟨_, _, rfl⟩
  flagged id _ := by simp
  length id _ := by simp

theorem Noted.congr (h : Noted U m₀ m) (hU : ∀ id l, U id l ↔ V id l) : Noted V m₀ m := by
  have hU : U = V := funext fun id => funext fun l => propext (hU id l)
  exact hU ▸ h

variable {id : VarId}

theorem varOf_of_le (h : m.vars.size ≤ id) : m.varOf id = default := by
  rw [Memory.varOf, Array.getElem?_eq_none h]
  rfl

/-- What was noted of a variable is all that is known of it. -/
theorem Noted.varOf_eq (h : Noted U m₀ m) (h' : Noted V m₀ m')
    (hid : ∀ l, U id l ↔ V id l) : m.varOf id = m'.varOf id := by
  by_cases hlt : id < m₀.vars.size
  · obtain ⟨used, length, he⟩ := h.fields id
    obtain ⟨used', length', he'⟩ := h'.fields id
    have hused : (m.varOf id).usedAsArray = (m'.varOf id).usedAsArray := by
      rw [Bool.eq_iff_iff, h.flagged id hlt, h'.flagged id hlt, exists_congr hid]
    have hlength : (m.varOf id).usedLength = (m'.varOf id).usedLength := by
      refine (h.length id hlt).unique ?_
      simp only [hid]
      exact h'.length id hlt
    rw [he, he'] at hused hlength
    rw [he, he']
    cases hused
    cases hlength
    rfl
  · have hlt := Nat.not_lt.mp hlt
    rw [varOf_of_le (h.size ▸ hlt), varOf_of_le (h'.size ▸ hlt)]

/-- What was noted is all that is known of the memory. -/
theorem Noted.unique (h : Noted U m₀ m) (h' : Noted U m₀ m') : m = m' := by
  have hvars : m.vars = m'.vars := by
    refine Array.ext (h.size.trans h'.size.symm) fun i hi hi' => ?_
    have hget : m.varOf i = m'.varOf i := h.varOf_eq h' fun _ => .rfl
    rwa [Memory.varOf, Memory.varOf, Array.getElem?_eq_getElem hi,
      Array.getElem?_eq_getElem hi'] at hget
  calc m = { ({ m with vars := m₀.vars } : Memory) with vars := m.vars } := rfl
    _ = { ({ m' with vars := m₀.vars } : Memory) with vars := m.vars } := by rw [h.rest, h'.rest]
    _ = m' := by rw [hvars]

theorem Noted.idle (h : Noted U m₀ m) (hid : ∀ l, ¬ U id l) : m.varOf id = m₀.varOf id :=
  h.varOf_eq (.start m₀) fun l => iff_of_false (hid l) not_false

/-- The variable with one more use noted. -/
def noted (length : Option Int) (v : Variable) : Variable :=
  { v with usedAsArray := true, usedLength := length.elim v.usedLength (max v.usedLength) }

/-- One more use is noted. -/
theorem Noted.note (h : Noted U m₀ m) (id : VarId) (length : Option Int) :
    Noted (fun j l => U j l ∨ j = id ∧ l = length) m₀ (m.setVar id (noted length)) where
  rest := h.rest
  size := (Array.size_modify ..).trans h.size
  fields j := by
    obtain ⟨used, length', he⟩ := h.fields j
    rw [Memory.varOf_setVar]
    split
    · exact ⟨_, _, by rw [he]; rfl⟩
    · exact ⟨_, _, he⟩
  flagged j hj := by
    have hold := h.flagged j hj
    rw [Memory.varOf_setVar]
    split
    · next hid => exact iff_of_true rfl (.inr ⟨length, .inr ⟨hid.1.symm, rfl⟩⟩)
    · next hid =>
      have hne : j ≠ id := fun he => hid ⟨he.symm, h.size ▸ hj⟩
      rw [hold]
      simp [hne]
  length j hj := by
    obtain ⟨hmem, hmax⟩ := h.length j hj
    have hbound (l : Int) (hl : l = (m₀.varOf j).usedLength ∨ U j (some l)) :
        l ≤ (m.varOf j).usedLength := hmax hl
    rw [Memory.varOf_setVar]
    split
    · next hid =>
      obtain rfl := hid.1
      cases length with
      | none =>
        refine ⟨hmem.imp_right .inl, ?_⟩
        rintro l (hl | hl | ⟨_, hl⟩)
        · exact hbound l (.inl hl)
        · exact hbound l (.inr hl)
        · cases hl
      | some needed =>
        show IsGreatest _ (max (m.varOf id).usedLength needed)
        constructor
        · rcases max_choice (m.varOf id).usedLength needed with he | he
          · rw [he]
            exact hmem.imp_right .inl
          · rw [he]
            exact .inr (.inr ⟨rfl, rfl⟩)
        · rintro l (hl | hl | ⟨_, hl⟩)
          · exact (hbound l (.inl hl)).trans (le_max_left ..)
          · exact (hbound l (.inr hl)).trans (le_max_left ..)
          · cases hl
            exact le_max_right ..
    · next hid =>
      have hne : j ≠ id := fun he => hid ⟨he.symm, h.size ▸ hj⟩
      refine ⟨hmem.imp_right .inl, ?_⟩
      rintro l (hl | hl | ⟨he, _⟩)
      · exact hbound l (.inl hl)
      · exact hbound l (.inr hl)
      · exact absurd he hne

end Noted

/-! ## Steps that note uses -/

/-- The step notes the uses `V`, and those only of variables in `P`.  It starts in a memory that is
`m₀` with uses of such variables noted. -/
structure Notes (m₀ : Memory) (P : VarId → Prop) (x : MemM Unit) (V : VarId → Option Int → Prop) :
    Prop where
  within : ∀ id l, V id l → P id
  ends : ∀ U m, (∀ id l, U id l → P id) → Noted U m₀ m →
    Ends x m (fun _ => Noted (fun id l => U id l ∨ V id l) m₀) fun _ _ => True

section Notes

variable {m₀ : Memory} {P : VarId → Prop} {x y : MemM Unit} {V W : VarId → Option Int → Prop}

theorem Notes.congr (h : Notes m₀ P x V) (hV : ∀ id l, V id l ↔ W id l) : Notes m₀ P x W := by
  have hV : V = W := funext fun id => funext fun l => propext (hV id l)
  exact hV ▸ h

theorem notes_pure : Notes m₀ P (pure ⟨⟩) fun _ _ => False where
  within _ _ h := h.elim
  ends _ _ _ hm := Ends.pure (hm.congr fun _ _ => (iff_of_eq (or_false _)).symm)

theorem notes_change {id : VarId} (hid : P id) (length : Option Int) :
    Notes m₀ P (Memory.change id (noted length)) fun j l => j = id ∧ l = length where
  within _ _ h := h.1 ▸ hid
  ends _ _ _ hm := Ends.modify (hm.note id length)

theorem Notes.seq (hx : Notes m₀ P x V) (hy : Notes m₀ P y W) :
    Notes m₀ P (do x; y) fun id l => V id l ∨ W id l where
  within id l h := h.elim (hx.within id l) (hy.within id l)
  ends U m hU hm := by
    refine Ends.bind ((hx.ends U m hU hm).mono (fun _ m₁ hm₁ => ?_) fun _ _ h => h)
    have hwithin (id : VarId) (l : Option Int) (h : U id l ∨ V id l) : P id :=
      h.elim (hU id l) (hx.within id l)
    exact (hy.ends _ m₁ hwithin hm₁).mono (fun _ _ h => h.congr fun _ _ => or_assoc) fun _ _ h => h

/-- A step with a number that may not be readable. -/
theorem notes_orFault {r : Except Fault Int} {f : Int → MemM Unit}
    {V : Int → VarId → Option Int → Prop} (h : ∀ i, Notes m₀ P (f i) (V i)) :
    Notes m₀ P (do f (← orFault r)) fun id l => ∃ i, r = .ok i ∧ V i id l where
  within id l := by
    rintro ⟨i, _, hV⟩
    exact (h i).within id l hV
  ends U m hU hm := by
    cases r with
    | ok i =>
      refine Ends.bind_ok rfl (((h i).ends U m hU hm).mono (fun _ _ hm' => ?_) fun _ _ h => h)
      refine hm'.congr fun id l => or_congr_right ⟨fun hV => ⟨i, rfl, hV⟩, ?_⟩
      rintro ⟨_, ⟨⟩, hV⟩
      exact hV
    | error e => exact Ends.bind (Ends.throw trivial)

theorem Notes.forM {α : Type} {f : α → MemM Unit} {V : α → VarId → Option Int → Prop} {as : List α}
    (h : ∀ a ∈ as, Notes m₀ P (f a) (V a)) :
    Notes m₀ P (as.forM f) fun id l => ∃ a ∈ as, V a id l := by
  induction as with
  | nil => exact notes_pure.congr (by simp)
  | cons a as ih =>
    obtain ⟨ha, has⟩ := List.forall_mem_cons.mp h
    exact (ha.seq (ih has)).congr fun id l => by simp

end Notes

/-! ## The uses in a tree -/

/-- The expression starts at the parameter. -/
def StartsAt (params : Params) (id : VarId) (n : Node) : Prop :=
  n.baseName?.bind params.get? = some id

/-- The node is a subscript of the parameter, and what stands before the brackets has a name. -/
structure Indexes (params : Params) (id : VarId) (index n : Node) : Prop where
  kind : n.kind = .subscript
  base : ∃ base rest, n.children = base :: index :: rest ∧ StartsAt params id base ∧
    base.baseName? ≠ some ""

/-- The parameter is passed on for a variable of the function that is called. -/
def PassedAs (params : Params) (callee : Function) (id other : VarId) (param : Label)
    (argument : Node) : Prop :=
  callee.vars.get? (ownedName callee.name.plain param.plain) = some other ∧
    StartsAt params id argument

/-- The node is a call that passes the parameter on. -/
structure Passes (callee? : String → Option Function) (params : Params) (id other : VarId)
    (n : Node) : Prop where
  kind : n.kind = .call
  named : calleeName n.info ≠ ""
  passed : ∃ callee, callee? (calleeName n.info) = some callee ∧
    ∃ pair ∈ callee.params.zip n.arguments, PassedAs params callee id other pair.1 pair.2

/-- A length that an index asks for, if any: for a constant, one more than it. -/
def AskedBy (index : Node) (length : Option Int) : Prop :=
  length = none ∨ ∃ text i, index.integerText? = some text ∧ Text.readInt text = .ok i ∧
    length = some (i + 1)

/-- The node uses the parameter as an array.  It is indexed there, or passed on for a parameter of
the callee that is used as an array itself. -/
inductive UsesAt (callee? : String → Option Function) (params : Params) (m : Memory) (id : VarId)
    (n : Node) : Option Int → Prop
  | index {index : Node} {length : Option Int} : Indexes params id index n →
      AskedBy index length → UsesAt callee? params m id n length
  | passed {other : VarId} : Passes callee? params id other n →
      (m.varOf other).usedAsArray = true →
        UsesAt callee? params m id n (some (m.varOf other).usedLength)

theorem UsesAt.exists_get? {callee? : String → Option Function} {params : Params} {m : Memory}
    {id : VarId} {n : Node} {length : Option Int} (h : UsesAt callee? params m id n length) :
    ∃ x, params.get? x = some id := by
  have hstarts : ∃ k, StartsAt params id k := by
    rcases h with ⟨⟨_, base, _, _, hbase, _⟩, _⟩ | ⟨⟨_, _, _, _, pair, _, _, hown⟩, _⟩
    · exact ⟨base, hbase⟩
    · exact ⟨pair.2, hown⟩
  obtain ⟨k, hk⟩ := hstarts
  obtain ⟨x, _, hx⟩ := Option.bind_eq_some_iff.mp hk
  exact ⟨x, hx⟩

section Steps

variable {callee? : String → Option Function} {params : Params} {m₀ : Memory}

theorem notes_noteIndex (base : String) (index : Node) :
    Notes m₀ (· ∈ params.values) (noteIndex params base index)
      fun id l => params.get? base = some id ∧ AskedBy index l := by
  unfold noteIndex AskedBy
  cases hid : params.get? base with
  | none => exact notes_pure.congr (by simp)
  | some id =>
    have hmem : id ∈ params.values := Table.mem_values_of_get? hid
    cases index.integerText? with
    | none => exact ((notes_change hmem none).seq notes_pure).congr (by grind)
    | some text =>
      have hread : ∀ i, Notes m₀ (· ∈ params.values) (Memory.change id (widen (i + 1))) _ :=
        fun i => notes_change hmem (some (i + 1))
      exact ((notes_change hmem none).seq (notes_orFault hread)).congr (by grind)

/-- The variables of the function are not among those that are changed. -/
def Spares (params : Params) (callee : Function) : Prop :=
  ∀ name other, callee.vars.get? name = some other → other ∉ params.values

variable {callee : Function} {n : Node}

/-- An argument is used as the callee uses its parameter. -/
theorem notes_noteArgument (hspares : Spares params callee) (param : Label) (argument : Node) :
    Notes m₀ (· ∈ params.values) (noteArgument params callee param argument)
      fun id l => ∃ other, PassedAs params callee id other param argument ∧
        (m₀.varOf other).usedAsArray = true ∧ l = some (m₀.varOf other).usedLength where
  within id l := by
    rintro ⟨other, ⟨_, hown⟩, _⟩
    obtain ⟨x, _, hx⟩ := Option.bind_eq_some_iff.mp hown
    exact Table.mem_values_of_get? hx
  ends U m hU hm := by
    refine Ends.bind (Ends.get ?_)
    unfold PassedAs StartsAt
    cases hother : callee.vars.get? (ownedName callee.name.plain param.plain) with
    | none => exact Ends.pure (hm.congr (by simp))
    | some other =>
      have hidle : m.varOf other = m₀.varOf other :=
        hm.idle fun l hl => hspares _ _ hother (hU other l hl)
      dsimp only
      rw [hidle]
      split
      · next hused =>
        cases hown : argument.baseName?.bind params.get? with
        | none => exact Ends.pure (hm.congr (by simp))
        | some own =>
          refine Ends.modify ((hm.note own (some (m₀.varOf other).usedLength)).congr fun id l => ?_)
          refine or_congr_right ⟨?_, ?_⟩
          · rintro ⟨rfl, rfl⟩
            exact ⟨other, ⟨rfl, rfl⟩, hused, rfl⟩
          · rintro ⟨_, ⟨⟨⟩, ⟨⟩⟩, _, hl⟩
            exact ⟨rfl, hl⟩
      · next hused => exact Ends.pure (hm.congr (by simp [hused]))

theorem notes_notePassed (hspares : Spares params callee) (pairs : List (Label × Node)) :
    Notes m₀ (· ∈ params.values) (notePassed params callee pairs)
      fun id l => ∃ pair ∈ pairs, ∃ other, PassedAs params callee id other pair.1 pair.2 ∧
        (m₀.varOf other).usedAsArray = true ∧ l = some (m₀.varOf other).usedLength := by
  induction pairs with
  | nil => exact notes_pure.congr (by simp)
  | cons pair pairs ih =>
    exact ((notes_noteArgument hspares pair.1 pair.2).seq ih).congr fun _ _ => by simp

/-- A subscript notes a use of its base. -/
theorem notes_subscript {base index : Node} {rest : List Node} (hkind : n.kind = .subscript)
    (hcs : n.children = base :: index :: rest) :
    Notes m₀ (· ∈ params.values) (noteNode callee? params n)
      fun id l => UsesAt callee? params m₀ id n l := by
  have huses (id : VarId) (l : Option Int) : UsesAt callee? params m₀ id n l ↔
      base.baseName?.bind params.get? = some id ∧ base.baseName? ≠ some "" ∧ AskedBy index l := by
    constructor
    · rintro (⟨⟨_, base', rest', hcs', hbase, hne⟩, hasked⟩ | ⟨⟨hcall, _⟩, _⟩)
      · cases hcs.symm.trans hcs'
        exact ⟨hbase, hne, hasked⟩
      · cases hkind.symm.trans hcall
    · rintro ⟨hbase, hne, hasked⟩
      exact .index ⟨hkind, base, rest, hcs, hbase, hne⟩ hasked
  refine Notes.congr ?_ fun id l => (huses id l).symm
  unfold noteNode
  rw [hkind, hcs]
  dsimp only
  cases base.baseName? with
  | none => exact notes_pure.congr (by simp)
  | some name =>
    by_cases hempty : name = ""
    · subst hempty
      exact notes_pure.congr (by simp)
    · rw [Option.filter_some_pos (by simpa using hempty)]
      exact (notes_noteIndex name index).congr (by simp [hempty])

/-- A call notes the uses of its arguments. -/
theorem notes_call (hkind : n.kind = .call)
    (hspares : ∀ callee, callee? (calleeName n.info) = some callee → Spares params callee) :
    Notes m₀ (· ∈ params.values) (noteCall callee? params n)
      fun id l => UsesAt callee? params m₀ id n l := by
  have huses (id : VarId) (l : Option Int) : UsesAt callee? params m₀ id n l ↔
      calleeName n.info ≠ "" ∧ ∃ callee, callee? (calleeName n.info) = some callee ∧
        ∃ pair ∈ callee.params.zip n.arguments, ∃ other,
          PassedAs params callee id other pair.1 pair.2 ∧
            (m₀.varOf other).usedAsArray = true ∧ l = some (m₀.varOf other).usedLength := by
    constructor
    · rintro (⟨⟨hsubscript, _⟩, _⟩ | ⟨⟨_, hne, callee, hcallee, pair, hpair, hpassed⟩, hused⟩)
      · cases hkind.symm.trans hsubscript
      · exact ⟨hne, callee, hcallee, pair, hpair, _, hpassed, hused, rfl⟩
    · rintro ⟨hne, callee, hcallee, pair, hpair, other, hpassed, hused, rfl⟩
      exact .passed ⟨hkind, hne, callee, hcallee, pair, hpair, hpassed⟩ hused
  refine Notes.congr ?_ fun id l => (huses id l).symm
  unfold noteCall
  dsimp only
  split
  · next hempty => exact notes_pure.congr (by simp_all)
  · next hname =>
    have hname : calleeName n.info ≠ "" := by simpa using hname
    cases hcallee : callee? (calleeName n.info) with
    | none => exact notes_pure.congr (by simp)
    | some callee =>
      exact (notes_notePassed (hspares callee hcallee) _).congr (by simp [hname])

/-- Noting a node notes the uses at it. -/
theorem notes_noteNode (hspares : n.kind = .call →
    ∀ callee, callee? (calleeName n.info) = some callee → Spares params callee) :
    Notes m₀ (· ∈ params.values) (noteNode callee? params n)
      fun id l => UsesAt callee? params m₀ id n l := by
  by_cases hcall : n.kind = .call
  · have hnote : noteNode callee? params n = noteCall callee? params n := by
      rw [noteNode, hcall]
    exact hnote ▸ notes_call hcall (hspares hcall)
  · by_cases hindex : n.kind = .subscript ∧ ∃ base index rest, n.children = base :: index :: rest
    · obtain ⟨hkind, base, index, rest, hcs⟩ := hindex
      exact notes_subscript hkind hcs
    · have hnote : noteNode callee? params n = pure ⟨⟩ := by
        unfold noteNode
        split
        · next hkind hcs => exact absurd ⟨hkind, _, _, _, hcs⟩ hindex
        · next hkind => exact absurd hkind hcall
        · rfl
      rw [hnote]
      refine notes_pure.congr fun id l => ⟨False.elim, ?_⟩
      rintro (⟨⟨hkind, base, rest, hcs, _⟩, _⟩ | ⟨⟨hkind, _⟩, _⟩)
      · exact hindex ⟨hkind, _, _, _, hcs⟩
      · exact hcall hkind

end Steps

/-! ## Scans -/

/-- The uses in a tree. -/
def UsedIn (callee? : String → Option Function) (params : Params) (m : Memory) (n : Node)
    (id : VarId) (length : Option Int) : Prop :=
  ∃ k : Node, k.PartOf n ∧ UsesAt callee? params m id k length

/-- The functions that are called in a tree have variables of their own. -/
def Apart (callee? : String → Option Function) (params : Params) (n : Node) : Prop :=
  ∀ k : Node, k.PartOf n → k.kind = .call →
    ∀ callee, callee? (calleeName k.info) = some callee → Spares params callee

section Scans

variable {callee? : String → Option Function} {params : Params} {m₀ : Memory}

variable {n : Node} {m m' : Memory} {ns : List Node}

/-- Noting all nodes of a tree notes the uses in it, in whatever order and however often. -/
theorem notes_forM (h : Apart callee? params n) (hns : ∀ k, k ∈ ns ↔ k.PartOf n) :
    Notes m₀ (· ∈ params.values) (ns.forM (noteNode callee? params)) (UsedIn callee? params m₀ n) :=
  (Notes.forM fun k hk => notes_noteNode (h k ((hns k).mp hk))).congr fun _ _ => by
    simp [UsedIn, hns]

theorem notes_scan (h : Apart callee? params n) :
    Notes m₀ (· ∈ params.values) (scan callee? params n) (UsedIn callee? params m₀ n) := by
  rw [scan_eq_forM]
  exact notes_forM h fun k => mem_trees_iff n

/-- The first step from a memory on has noted its uses there. -/
theorem Notes.noted {x : MemM Unit} {V : VarId → Option Int → Prop} {P : VarId → Prop}
    (h : Notes m P x V) (hx : x m = .ok ⟨⟩ m') : Noted V m m' :=
  ((h.ends _ m (fun _ _ h => h.elim) (Noted.start m)).value _ _ hx).congr fun _ _ =>
    iff_of_eq (false_or _)

/-- In whatever order, and however often, the nodes are noted: the result is that of the scan. -/
theorem forM_noteNode_eq (h : Apart callee? params n) (hscan : scan callee? params n m = .ok ⟨⟩ m')
    (hns : ∀ k, k ∈ ns ↔ k.PartOf n) : ns.forM (noteNode callee? params) m = .ok ⟨⟩ m' := by
  have hreads := (scan_ends n m).mp ⟨m', hscan⟩
  obtain ⟨m₁, hm₁⟩ : ∃ m₁, ns.forM (noteNode callee? params) m = .ok ⟨⟩ m₁ :=
    (forM_noteNode_ends ns m).mpr fun k hk => hreads k ((hns k).mp hk)
  rw [hm₁, ((notes_forM h hns).noted hm₁).unique ((notes_scan h).noted hscan)]

/-- Another scan finds nothing new. -/
theorem scan_again (h : Apart callee? params n) (hscan : scan callee? params n m = .ok ⟨⟩ m') :
    scan callee? params n m' = .ok ⟨⟩ m' := by
  obtain ⟨m₂, hm₂⟩ := (scan_ends n m').mpr ((scan_ends n m).mp ⟨m', hscan⟩)
  have hnotes : Notes m (· ∈ params.values) (scan callee? params n) (UsedIn callee? params m n) :=
    notes_scan h
  have hnoted := hnotes.noted hscan
  have hends := hnotes.ends _ m' hnotes.within hnoted
  have hnoted' := (hends.value _ _ hm₂).congr fun id l => or_self_iff
  rw [hm₂, hnoted'.unique hnoted]

theorem scan_of_empty (hempty : params.entries = []) : scan callee? params n m = .ok ⟨⟩ m := by
  obtain rfl : params = {} := by cases params; cases hempty; rfl
  have hget (x : String) : ({} : Params).get? x = none := rfl
  have happart : Apart callee? {} n := fun _ _ _ _ _ _ _ _ => List.not_mem_nil
  have hreads (k : Node) : Reads {} k := by
    intro text htext
    unfold indexText? at htext
    split at htext
    · simp [hget] at htext
    · cases htext
  obtain ⟨m', hm'⟩ : ∃ m', scan callee? {} n m = .ok ⟨⟩ m' :=
    (scan_ends n m).mpr fun k _ => hreads k
  have hnotes : Notes m (· ∈ ({} : Params).values) _ (UsedIn callee? {} m n) := notes_scan happart
  have hnone (id : VarId) (l : Option Int) : ¬ UsedIn callee? {} m n id l := fun h =>
    List.not_mem_nil (hnotes.within id l h)
  rw [hm', (hnotes.noted hm').unique
    ((Noted.start m).congr fun id l => iff_of_false not_false (hnone id l))]

end Scans

/-! ## The pointer parameters of a function -/

/-- The variable is that of a pointer parameter, and what follows the function in its name is
`x`. -/
def isCalled (m : Memory) (x : String) (id : VarId) : Bool :=
  (m.varOf id).domain = .param && (m.varOf id).isPointer &&
    Text.after? ">" (m.varOf id).name = some x

section Params

variable {m : Memory} {ids : List VarId} {found params : Params}

theorem mem_of_paramsOf (h : paramsOf m found ids = .ok params) {id : VarId}
    (hid : id ∈ params.values) : id ∈ found.values ∨ id ∈ ids := by
  induction ids generalizing found with
  | nil =>
    cases h
    exact .inl hid
  | cons i ids ih =>
    unfold paramsOf at h
    dsimp only at h
    split at h
    · split at h
      · rcases ih h with hid | hid
        · rcases Table.mem_values_set hid with rfl | hid
          · exact .inr (List.mem_cons_self ..)
          · exact .inl hid
        · exact .inr (List.mem_cons_of_mem i hid)
      · cases h
    · exact (ih h).imp_right (List.mem_cons_of_mem i)

/-- A name leads to the last pointer parameter that is called so. -/
theorem get?_paramsOf (h : paramsOf m found ids = .ok params) (x : String) :
    params.get? x = (ids.filter (isCalled m x)).getLast?.or (found.get? x) := by
  induction ids generalizing found with
  | nil =>
    cases h
    rfl
  | cons i ids ih =>
    unfold paramsOf at h
    dsimp only at h
    split at h
    · next hpointer =>
      split at h
      · next y hy =>
        have hi : isCalled m x i = decide (y = x) := by simp [isCalled, hpointer, hy]
        rw [ih h, Table.get?_set, List.filter_cons, hi]
        by_cases hyx : y = x
        · simp [hyx, List.getLast?_cons, Option.or_some]
        · simp [hyx]
      · cases h
    · next hpointer =>
      have hi : isCalled m x i = false := by simp [isCalled, hpointer]
      rw [ih h, List.filter_cons, hi]
      rfl

theorem paramsOf_congr {U : VarId → Option Int → Prop} {m' : Memory} (h : Noted U m m') :
    paramsOf m' found ids = paramsOf m found ids := by
  induction ids generalizing found with
  | nil => rfl
  | cons i ids ih =>
    obtain ⟨used, length, hi⟩ := h.fields i
    unfold paramsOf
    simp only [hi, ih]

end Params

/-! ## The scan of a function -/

/-- The text is written with the digits `0` to `9` alone. -/
def IsDecimal (text : String) : Prop := text ≠ "" ∧ ∀ c ∈ text.toList, c.isDigit = true

/-- There is a function before the names of the pointer parameters, the function does not call
itself, functions of other names have variables of their own, and constant indices are decimal
texts. -/
structure Scannable (callee? : String → Option Function) (f : Function) (body : Node) (m : Memory) :
    Prop where
  defined : f.body = some body
  named : ∀ id ∈ f.vars.values, (m.varOf id).domain = .param → (m.varOf id).isPointer = true →
    '>' ∈ (m.varOf id).name.toList
  own : ∀ name g, callee? name = some g → name ≠ f.name.plain →
    ∀ id ∈ g.vars.values, id ∉ f.vars.values
  self : ∀ k : Node, k.PartOf body → k.kind = .call → calleeName k.info ≠ f.name.plain
  decimal : ∀ k : Node, k.PartOf body → k.kind = .subscript → ∀ base index rest,
    k.children = base :: index :: rest → ∀ text, index.integerText? = some text → IsDecimal text

section Function

variable {callee? : String → Option Function} {f : Function} {body : Node} {m : Memory}
variable {params : Params}

theorem scanFunction_eq (hbody : f.body = some body)
    (hparams : paramsOf m {} f.vars.values = .ok params) :
    scanFunction callee? f m = scan callee? params body m := by
  refine (bind_of_ok rfl).trans ((bind_of_ok (orFault_of_ok hparams m)).trans ?_)
  rw [hbody]
  dsimp only
  split
  · next hempty => exact (scan_of_empty (List.isEmpty_iff.mp hempty)).symm
  · rfl

variable {text : String}

theorem readInt_of_isDecimal (h : IsDecimal text) :
    Text.readInt text =
      if Text.maxDigits < text.length then .error .longNumber
      else .ok (Nat.ofDigitChars 10 text.toList 0 : Int) := by
  have hread := Text.readInt_of_isDigit h.2 (mt String.toList_eq_nil_iff.mp h.1)
  rwa [String.ofList_toList] at hread

theorem exists_readInt_iff (h : IsDecimal text) :
    (∃ i, Text.readInt text = .ok i) ↔ text.length ≤ Text.maxDigits := by
  rw [readInt_of_isDecimal h]
  split
  · next hlong => simp [hlong]
  · next hshort => simp [Nat.not_lt.mp hshort]

/-- A name in a body leads to the last pointer parameter that is called so.  The scan of the
function ends if and only if no constant index of a parameter is too long.  It then has noted the
uses in the body, and nothing else.  The order in which the nodes are met does not matter, and
another scan finds nothing new. -/
theorem scanFunction_notes_uses (h : Scannable callee? f body m) :
    ∃ params, paramsOf m {} f.vars.values = .ok params ∧
      (∀ x, params.get? x = (f.vars.values.filter (isCalled m x)).getLast?) ∧
      ((∃ m', scanFunction callee? f m = .ok ⟨⟩ m') ↔
        ∀ k : Node, k.PartOf body → ∀ text, indexText? params k = some text →
          text.length ≤ Text.maxDigits) ∧
      ∀ m', scanFunction callee? f m = .ok ⟨⟩ m' →
        Noted (UsedIn callee? params m body) m m' ∧
        (∀ k : Node, k.PartOf body → ∀ text, indexText? params k = some text →
          Text.readInt text = .ok (Nat.ofDigitChars 10 text.toList 0 : Int)) ∧
        (∀ id, (∀ x, params.get? x ≠ some id) → m'.varOf id = m.varOf id) ∧
        (∀ ns : List Node, (∀ k, k ∈ ns ↔ k.PartOf body) →
          ns.forM (noteNode callee? params) m = .ok ⟨⟩ m') ∧
        scanFunction callee? f m' = .ok ⟨⟩ m' := by
  obtain ⟨params, hparams⟩ := StraightLine.exists_paramsOf h.named {}
  have hget (x : String) : params.get? x = (f.vars.values.filter (isCalled m x)).getLast? :=
    (get?_paramsOf hparams x).trans Option.or_none
  have happart : Apart callee? params body := by
    intro k hk hcall callee hcallee name other hother hmem
    have hmem := (mem_of_paramsOf hparams hmem).resolve_left List.not_mem_nil
    exact h.own _ _ hcallee (h.self k hk hcall) other (Table.mem_values_of_get? hother) hmem
  have htexts (k : Node) (hk : k.PartOf body) (text : String)
      (htext : indexText? params k = some text) : IsDecimal text := by
    unfold indexText? at htext
    split at htext
    · next base index rest hkind hcs =>
      obtain ⟨_, _, htext⟩ := Option.bind_eq_some_iff.mp htext
      exact h.decimal k hk hkind base index rest hcs text htext
    · cases htext
  refine ⟨params, hparams, hget, ?_, fun m' hm' => ?_⟩
  · rw [scanFunction_eq h.defined hparams, scan_ends body m]
    constructor
    · intro hreads k hk text htext
      exact (exists_readInt_iff (htexts k hk text htext)).mp (hreads k hk text htext)
    · intro hshort k hk text htext
      exact (exists_readInt_iff (htexts k hk text htext)).mpr (hshort k hk text htext)
  · rw [scanFunction_eq h.defined hparams] at hm'
    have hnoted := (notes_scan happart).noted hm'
    have hreads := (scan_ends body m).mp ⟨m', hm'⟩
    refine ⟨hnoted, fun k hk text htext => ?_, fun id hid => hnoted.idle ?_,
      fun ns hns => forM_noteNode_eq happart hm' hns, ?_⟩
    · have hdigits := htexts k hk text htext
      have hshort := (exists_readInt_iff hdigits).mp (hreads k hk text htext)
      rw [readInt_of_isDecimal hdigits, if_neg (Nat.not_lt.mpr hshort)]
    · rintro l ⟨k, _, huse⟩
      obtain ⟨x, hx⟩ := huse.exists_get?
      exact hid x hx
    · rw [scanFunction_eq h.defined ((paramsOf_congr hnoted).trans hparams)]
      exact scan_again happart hm'

end Function

/-- The variable `x`. -/
def refTo (x : String) : Node := .mk { kind := .declRef, spelling := x } [] none

/-- A body with `p[text]` and `g(p)`. -/
def handsOn (text : String) : Node :=
  .mk { kind := .other }
    [.mk { kind := .subscript }
      [refTo "p", .mk { kind := .integer, tokens := [text] } [] none] none,
      .mk { kind := .call, spelling := "g" } [refTo "g", refTo "p"] none] none

/-- The function `f(p)` with that body. -/
def caller (text : String) : Function :=
  { name := .text "f", source := "a.c", params := [.text "p"], vars := ⟨[("<f>p", 0)]⟩,
    body := some (handsOn text) }

/-- The function `g(q)`. -/
def helper (name : String) : Option Function :=
  if name = "g" then
    some { name := .text "g", source := "a.c", params := [.text "q"], vars := ⟨[("<g>q", 1)]⟩ }
  else none

/-- The pointer parameters `p` and `q`, the latter used as an array of length 7. -/
def pointers : Memory where
  vars := #[
    { name := "<f>p", type := "int *", kind := .pointer, domain := .param, isPointer := true },
    { name := "<g>q", type := "int *", kind := .pointer, domain := .param, isPointer := true,
      usedAsArray := true, usedLength := 7 }]

theorem scannable_handsOn {text : String} (h : IsDecimal text) :
    Scannable helper (caller text) (handsOn text) pointers where
  defined := rfl
  named id hid _ _ := by
    obtain rfl : id = 0 := List.mem_singleton.mp hid
    decide
  own name g hg _ id hid := by
    unfold helper at hg
    split at hg
    · cases hg
      obtain rfl : id = 1 := List.mem_singleton.mp hid
      exact show 1 ∉ [0] by decide
    · cases hg
  self := by
    unfold handsOn refTo
    simp [partOf_mk, kind, info, calleeName, caller, Label.plain]
  decimal := by
    unfold handsOn refTo
    simp only [partOf_mk, List.forall_mem_cons, List.not_mem_nil, false_imp_iff, implies_true,
      and_true]
    refine ⟨by simp [kind, info], ⟨fun _ base index rest hcs t ht => ?_, ?_⟩, ?_⟩
    · cases hcs
      cases ht
      exact h
    · simp [kind, info]
    · simp [kind, info]

/-- The index asks for 5 elements and the call for 7. -/
theorem scanFunction_notes_uses_handsOn :
    ∃ m', scanFunction helper (caller "4") pointers = .ok ⟨⟩ m' ∧
      (m'.varOf 0).usedAsArray = true ∧ (m'.varOf 0).usedLength = 7 ∧
      m'.varOf 1 = pointers.varOf 1 ∧ scanFunction helper (caller "4") m' = .ok ⟨⟩ m' := by
  have hdecimal : IsDecimal "4" := ⟨by decide, forall_of_all (by decide)⟩
  obtain ⟨params, _, hget, _, hnotes⟩ := scanFunction_notes_uses (scannable_handsOn hdecimal)
  have hlength : (after? (scanFunction helper (caller "4") pointers)).map (fun m' =>
      ((m'.varOf 0).usedAsArray, (m'.varOf 0).usedLength)) = some (true, 7) := by decide +kernel
  obtain ⟨m', hrun, hlength⟩ := ok_of_map hlength
  obtain ⟨hused, hlength⟩ := Prod.mk.inj hlength
  obtain ⟨_, _, hother, _, hagain⟩ := hnotes m' hrun
  refine ⟨m', hrun, hused, hlength, hother 1 fun x hx => ?_, hagain⟩
  rw [hget x] at hx
  have hmem : 1 ∈ [0] := List.mem_of_mem_filter (List.mem_of_getLast? hx)
  exact absurd hmem (by decide)

/-- Too many digits, though they write zero. -/
def zeros : String := String.ofList (List.replicate 4301 '0')

/-- An index with more than 4300 digits stops the scan. -/
theorem long_index_not_scanned :
    Scannable helper (caller zeros) (handsOn zeros) pointers ∧
      ¬ ∃ m', scanFunction helper (caller zeros) pointers = .ok ⟨⟩ m' := by
  have hlist : zeros.toList = List.replicate 4301 '0' := String.toList_ofList
  have hlength : zeros.length = 4301 := by
    rw [← String.length_toList, hlist, List.length_replicate]
  have hdecimal : IsDecimal zeros := by
    refine ⟨fun he => ?_, fun c hc => ?_⟩
    · rw [he] at hlength
      cases hlength
    · rw [hlist] at hc
      rw [List.eq_of_mem_replicate hc]
      rfl
  refine ⟨scannable_handsOn hdecimal, fun hrun => ?_⟩
  have hparams : paramsOf pointers {} (caller zeros).vars.values = .ok ⟨[("p", 0)]⟩ := by
    show paramsOf pointers {} [0] = .ok ⟨[("p", 0)]⟩
    decide +kernel
  rw [scanFunction_eq rfl hparams, scan_ends] at hrun
  have hread := hrun _ (.child (List.mem_cons_self ..) .itself) zeros rfl
  have hshort := (exists_readInt_iff hdecimal).mp hread
  rw [hlength] at hshort
  exact absurd hshort (by decide)

end Footprint.Scan
