import Footprint.Proofs.Memory.Steady

/-!
# What a layout adds

The parts of a variable are added one at a time.  Most parts get a variable and
a block of their own.  An element that is there under its name already is only
noted.  `Change` is one such addition.  Every layout, and so every lookup, is a
row of them, also where it stops with a fault, unless it never ends.

The rows are stated once for all layouts.  `P` is what is known of the slots
that are added.  `D` is a condition under which no part is added twice.

A layout that gives a value has added every member of every new block.  This is
`Completes`.
-/

namespace Footprint

/-- The variable is the same but for its parts.  It has lost none of them, and under `D` each is
where it was. -/
structure Variable.GrowsTo (D : Prop) (v v' : Variable) : Prop where
  same : v' = { v with parts := v'.parts }
  part : ∀ s c, v.parts.get? s = some c → ∃ c', v'.parts.get? s = some c' ∧ (D → c' = c)

theorem Variable.GrowsTo.refl {D : Prop} (v : Variable) : v.GrowsTo D v :=
  ⟨rfl, fun _ c hc => ⟨c, hc, fun _ => rfl⟩⟩

theorem Variable.GrowsTo.trans {D : Prop} {v v' v'' : Variable} (h : v.GrowsTo D v')
    (h' : v'.GrowsTo D v'') : v.GrowsTo D v'' where
  same := by rw [h'.same, h.same]
  part s c hc := by
    obtain ⟨c', hc', he⟩ := h.part s c hc
    obtain ⟨c'', hc'', he'⟩ := h'.part s c' hc'
    exact ⟨c'', hc'', fun hD => (he' hD).trans (he hD)⟩

namespace Memory

variable {T : TypeTable} {P : Slot → Prop} {D : Prop} {m m' m'' : Memory}

/-- The memory with the address of a part noted. -/
def notePart (m : Memory) (id : VarId) (s : Slot) (a : Nat) : Memory :=
  m.setVar id fun v => { v with parts := v.parts.set s a }

/-- The type that the parts of a block are laid out by.  The type of a root is still to be
decoded. -/
def layoutType (T : TypeTable) (m : Memory) (b : Block) : String :=
  if b.parent = 0 then T.decode (m.varOf b.var).type else (m.varOf b.var).type

/-- A block has the slot by its type, for a part of the given type. -/
def HasSlot (T : TypeTable) (m : Memory) (b : Block) (s : Slot) (type : String) : Prop :=
  match s with
  | .member name => T.isBasic (m.layoutType T b) = false ∧ T.isArray (m.layoutType T b) = false ∧
      ∃ r, T.recordFor? (m.layoutType T b) = some r ∧ (type, name) ∈ r.members
  | .element _ | .anyElement =>
      (m.varOf b.var).kind = .array ∧ ∃ n, T.element (m.varOf b.var).type = .ok (type, n)

/-- One part is added to the variable of a block. -/
inductive Change (T : TypeTable) (P : Slot → Prop) (D : Prop) (m : Memory) : Memory → Prop
  /-- An element that is there under its name. -/
  | note {a : Nat} {b : Block} {s : Slot} {c : Nat} (hb : m.block? a = some b) (hp : P s)
      (hnone : (m.varOf b.var).parts.get? s = none)
      (hc : m.address? ((m.varOf b.var).name ++ s.suffix) = some c) :
      Change T P D m (m.notePart b.var s c)
  /-- A part with a new variable and block. -/
  | add {a : Nat} {b : Block} {s : Slot} {type : String} (hb : m.block? a = some b) (hp : P s)
      (hslot : m.HasSlot T b s type) (hnone : D → (m.varOf b.var).parts.get? s = none)
      (habsent : s.IsElement → m.address? ((m.varOf b.var).name ++ s.suffix) = none) :
      Change T P D m ((m.notePart b.var s m.next).withPart ((m.varOf b.var).name ++ s.suffix) a
        (partVariable T ((m.varOf b.var).name ++ s.suffix) (T.decode type) m.next))

/-- Parts are added one after the other. -/
abbrev Changes (T : TypeTable) (P : Slot → Prop) (D : Prop) : Memory → Memory → Prop :=
  Relation.ReflTransGen (Change T P D)

/-! ## What additions keep -/

theorem varOf_notePart (m : Memory) (id j : VarId) (s : Slot) (a : Nat) :
    (m.notePart id s a).varOf j =
      if id = j ∧ j < m.vars.size then { m.varOf j with parts := (m.varOf j).parts.set s a }
      else m.varOf j :=
  varOf_setVar m id j _

theorem size_notePart (m : Memory) (id : VarId) (s : Slot) (a : Nat) :
    (m.notePart id s a).vars.size = m.vars.size := by
  simp [notePart, setVar]

theorem varOf_withPart (m : Memory) (name : String) (parent : Nat) (v : Variable) (j : VarId) :
    (m.withPart name parent v).varOf j = if j = m.vars.size then v else m.varOf j :=
  varOf_push m v j

variable {id : VarId} {s : Slot} {a c : Nat} {b : Block} {owed : Option String}

/-- A part is added where there was none. -/
theorem growsTo_notePart (a : Nat) (hnone : D → (m.varOf id).parts.get? s = none) (j : VarId) :
    (m.varOf j).GrowsTo D ((m.notePart id s a).varOf j) := by
  rw [varOf_notePart]
  split
  · next hj =>
    obtain ⟨rfl, _⟩ := hj
    refine ⟨rfl, fun s' c hc => ?_⟩
    rw [Table.get?_set]
    by_cases hs : s = s'
    · subst hs
      exact ⟨a, by simp, fun hD => by rw [hnone hD] at hc; cases hc⟩
    · exact ⟨c, by simp [hs, hc], fun _ => rfl⟩
  · exact .refl _

theorem block?_withPart_of_some (hb : m.block? a = some b) (name : String)
    (parent : Nat) (v : Variable) : (m.withPart name parent v).block? a = some b :=
  block?_withBlock_of_some (m := { m with vars := m.vars.push v }) hb name parent _

theorem block?_withPart_next (hnext : m.next = m.blocks.size) (name : String) (parent : Nat)
    (v : Variable) : (m.withPart name parent v).block? m.next =
      some { address := m.next, parent, var := m.vars.size } := by
  show ((m.blocks.push _)[m.next]?).join = _
  rw [hnext, Array.getElem?_push_size]
  rfl

theorem Change.mono {D' : Prop} (h : Change T P D m m') (hD : D' → D) : Change T P D' m m' := by
  cases h with
  | note hb hp hnone hc => exact .note hb hp hnone hc
  | add hb hp hslot hnone habsent => exact .add hb hp hslot (fun hd => hnone (hD hd)) habsent

theorem Change.block (h : Change T P D m m') (hb : m.block? a = some b) : m'.block? a = some b := by
  cases h with
  | note => exact hb
  | @add _ p s _ _ _ _ _ _ =>
    exact block?_withPart_of_some (m := m.notePart p.var s m.next) hb _ _ _

theorem Change.var (h : Change T P D m m') (hid : id < m.vars.size) :
    (m.varOf id).GrowsTo D (m'.varOf id) := by
  cases h with
  | note _ _ hnone _ => exact growsTo_notePart _ (fun _ => hnone) id
  | add _ _ _ hnone _ =>
    rw [varOf_withPart, size_notePart, if_neg (Nat.ne_of_lt hid)]
    exact growsTo_notePart _ hnone id

/-- Adding a part leaves the memory linked. -/
theorem Change.after (h : Change T P D m m') (hl : Linked none m) : After m m' := by
  cases h with
  | note _ _ _ hc =>
    exact ⟨hl.setPart (.inl (hl.name _ _ hc)), grows_setVar m _ fun _ => rfl⟩
  | @add a b s type hb _ _ _ _ =>
    generalize hname : (m.varOf b.var).name ++ s.suffix = name
    have h₁ : Linked (some name) (m.notePart b.var s m.next) :=
      hl.setPart (.inr ⟨by rw [hname], rfl⟩)
    have hg₁ : Grows m (m.notePart b.var s m.next) := grows_setVar m _ fun _ => rfl
    have h₂ := h₁.declare (v := partVariable T name (T.decode type) m.next) rfl
    have hg₂ := grows_declare h₁ (partVariable T name (T.decode type) m.next)
    have hvar := varOf_push (m.notePart b.var s m.next)
      (partVariable T name (T.decode type) m.next) (m.notePart b.var s m.next).vars.size
    rw [if_pos rfl] at hvar
    have hnamed := congrArg Variable.name hvar
    refine ⟨h₂.withBlock (fun n hn => (Option.some.inj hn).symm) (by simp) hnamed
      (hl.lt_next_of_block hb).2, (hg₁.trans hg₂).trans (grows_withBlock h₂ hnamed a)⟩

theorem Changes.after (h : Changes T P D m m') (hl : Linked none m) : After m m' := by
  induction h with
  | refl => exact .refl hl
  | tail _ hchange ih => exact ih.trans (hchange.after ih.linked)

theorem Changes.block (h : Changes T P D m m') (hb : m.block? a = some b) :
    m'.block? a = some b := by
  induction h with
  | refl => exact hb
  | tail _ hchange ih => exact hchange.block ih

theorem Changes.var (h : Changes T P D m m') (hl : Linked none m)
    (hid : id < m.vars.size) : (m.varOf id).GrowsTo D (m'.varOf id) := by
  induction h with
  | refl => exact .refl _
  | tail hchanges hchange ih =>
    exact ih.trans (hchange.var (Nat.lt_of_lt_of_le hid (Changes.after hchanges hl).grows.vars))

theorem layoutType_growsTo (h : (m.varOf b.var).GrowsTo D (m'.varOf b.var)) :
    m'.layoutType T b = m.layoutType T b := by
  unfold layoutType
  rw [congrArg Variable.type h.same]

theorem HasSlot.growsTo {type : String} (hs : m.HasSlot T b s type)
    (h : (m.varOf b.var).GrowsTo D (m'.varOf b.var)) : m'.HasSlot T b s type := by
  have hkind := congrArg Variable.kind h.same
  have htype := congrArg Variable.type h.same
  cases s with
  | member name =>
    unfold HasSlot at hs ⊢
    dsimp only at hs ⊢
    rwa [layoutType_growsTo h]
  | element i => exact ⟨hkind.trans hs.1, htype ▸ hs.2⟩
  | anyElement => exact ⟨hkind.trans hs.1, htype ▸ hs.2⟩

/-! ## Complete blocks -/

/-- The variable of a struct has all its members. -/
def Complete (T : TypeTable) (m : Memory) (b : Block) : Prop :=
  T.isBasic (m.layoutType T b) = false → T.isArray (m.layoutType T b) = false →
    ∃ r, T.recordFor? (m.layoutType T b) = some r ∧
      ∀ e ∈ r.members, ∃ c, (m.varOf b.var).parts.get? (.member e.2) = some c

theorem Complete.growsTo (hc : m.Complete T b)
    (h : (m.varOf b.var).GrowsTo D (m'.varOf b.var)) : m'.Complete T b := by
  unfold Complete at hc ⊢
  rw [layoutType_growsTo h]
  intro hbasic harray
  obtain ⟨r, hr, hmembers⟩ := hc hbasic harray
  refine ⟨r, hr, fun e he => ?_⟩
  obtain ⟨c, hc⟩ := hmembers e he
  obtain ⟨c', hc', _⟩ := h.part _ c hc
  exact ⟨c', hc'⟩

/-- Parts are added, and every new block is complete. -/
structure Completes (T : TypeTable) (P : Slot → Prop) (D : Prop) (m m' : Memory) : Prop where
  changes : Changes T P D m m'
  complete : ∀ c b, m.next ≤ c → m'.block? c = some b → m'.Complete T b

theorem Linked.not_le_of_block (hl : Linked owed m) (hb : m.block? c = some b) : ¬ m.next ≤ c :=
  Nat.not_le_of_lt (hl.lt_next_of_block hb).2

theorem Completes.refl (hl : Linked none m) : Completes T P D m m :=
  ⟨.refl, fun _ _ hle hb => absurd hle (hl.not_le_of_block hb)⟩

theorem Linked.var_lt (hl : Linked owed m) (hb : m.block? c = some b) : b.var < m.vars.size := by
  obtain ⟨hpos, hlt⟩ := hl.lt_next_of_block hb
  obtain ⟨b', hb', hplaced⟩ := hl.block c hpos hlt
  cases hb.symm.trans hb'
  exact hplaced.var

theorem Completes.trans (hl : Linked none m) (h : Completes T P D m m')
    (h' : Completes T P D m' m'') : Completes T P D m m'' := by
  have hl' := (h.changes.after hl).linked
  refine ⟨h.changes.trans h'.changes, fun c b hle hb => ?_⟩
  by_cases hc : m'.next ≤ c
  · exact h'.complete c b hc hb
  · have hpos : 0 < c := Nat.lt_of_lt_of_le hl.pos hle
    obtain ⟨b', hb', _⟩ := hl'.block c hpos (Nat.lt_of_not_le hc)
    cases hb.symm.trans (h'.changes.block hb')
    exact (h.complete c b hle hb').growsTo (h'.changes.var hl' (hl'.var_lt hb'))

/-- What holds where a layout stops: only parts were added before, unless it never ends. -/
structure Stops (T : TypeTable) (P : Slot → Prop) (D : Prop) (m : Memory) (e : Fault)
    (m' : Memory) : Prop where
  inBounds : ¬ e.OutOfBounds
  changes : e ≠ .endless → Changes T P D m m'

theorem Stops.after {e : Fault} (hc : Changes T P D m m') (h : Stops T P D m' e m'') :
    Stops T P D m e m'' :=
  ⟨h.inBounds, fun hne => hc.trans (h.changes hne)⟩

/-! ## Layouts -/

/-- What the slots of a type table are. -/
structure Admits (T : TypeTable) (P : Slot → Prop) (D : Prop) : Prop where
  any : P .anyElement
  index : ∀ text s, slotOf text = .ok (some s) → P s
  member : ∀ t r, T.recordFor? t = some r → ∀ e ∈ r.members, P (.member e.2)
  distinct : D → ∀ t r, T.recordFor? t = some r → (r.members.map Prod.snd).Nodup

/-- All slots may be added, and some twice. -/
theorem admits_all (T : TypeTable) : Admits T (fun _ => True) False :=
  ⟨trivial, fun _ _ _ => trivial, fun _ _ _ _ _ => trivial, False.elim⟩

/-- What laying out an array or a struct needs of the layout of a part.  Other variables are not
changed by it. -/
structure LaysPart (T : TypeTable) (P : Slot → Prop) (D : Prop) (layout : Layout) : Prop where
  ends : ∀ {m : Memory} {a : Nat} {b : Block} {s : Slot} {type : String}, Linked none m →
    m.block? a = some b → P s → m.HasSlot T b s type →
    (D → (m.varOf b.var).parts.get? s = none) →
    (s.IsElement → m.address? ((m.varOf b.var).name ++ s.suffix) = none) →
    Ends (layout ((m.varOf b.var).name ++ s.suffix) type a) (m.notePart b.var s m.next)
      (fun _ m' => Completes T P D m m' ∧
        ∀ id < m.vars.size, m'.varOf id = (m.notePart b.var s m.next).varOf id)
      (Stops T P D m)

section Layouts

variable {layout : Layout} {a : Nat} {b : Block}

/-- The address of an element is found, or the element is noted or laid out. -/
theorem elementWith_completes (hlayout : LaysPart T P D layout) (h : Linked none m)
    (hb : m.block? a = some b) {s : Slot} (hs : s.IsElement) (hp : P s) :
    Ends (elementWith T layout a (m.varOf b.var).name s) m
      (fun found m' => Completes T P D m m' ∧
        (∀ id < m.vars.size, id ≠ b.var → m'.varOf id = m.varOf id) ∧
        (∀ c, found = some c → (m'.varOf b.var).parts.get? s = some c) ∧ (found = none → m' = m))
      (Stops T P D m) := by
  have hvar := h.var_lt hb
  refine Ends.bind_ok (variableAt_ok h hb) ?_
  dsimp only
  have hset (c : Nat) : ((m.notePart b.var s c).varOf b.var).parts.get? s = some c := by
    rw [varOf_notePart, if_pos ⟨rfl, hvar⟩]
    simp
  split
  · refine Ends.pure ⟨.refl h, fun _ _ _ => rfl, ?_, fun _ => rfl⟩
    rintro _ ⟨⟩
  next hkind =>
  have hkind : (m.varOf b.var).kind = .array := by simpa using hkind
  split
  · next c hc =>
    refine Ends.pure ⟨.refl h, fun _ _ _ => rfl, ?_, fun _ => rfl⟩
    rintro _ ⟨⟩
    exact hc
  next hnone =>
  refine Ends.bind (Ends.orFault ?_ fun e he => ⟨(element_fault he).2, fun _ => .refl⟩)
  rintro ⟨base, n⟩ hbase
  refine Ends.bind (Ends.get ?_)
  dsimp only
  split
  · next c hc =>
    have hchange : Change T P D m (m.notePart b.var s c) := .note hb hp hnone hc
    refine Ends.bind (Ends.modify (Ends.pure ⟨⟨.single hchange, ?_⟩, ?_, ?_,
      fun he => by cases he⟩))
    · exact fun c' b' hle hb' => absurd hle (h.not_le_of_block hb')
    · intro id _ hne
      exact (varOf_notePart m b.var id s c).trans (if_neg fun he => hne he.1.symm)
    · rintro _ ⟨⟩
      exact hset c
  · next habsent =>
    have hslot : m.HasSlot T b s base := by
      cases s with
      | member name => exact hs.elim
      | element i => exact ⟨hkind, n, hbase⟩
      | anyElement => exact ⟨hkind, n, hbase⟩
    have hpart := hlayout.ends h hb hp hslot (fun _ => hnone) fun _ => habsent
    refine Ends.bind
      (Ends.get (Ends.bind (Ends.modify (Ends.bind (hpart.mono ?_ fun _ _ he => he)))))
    rintro _ m' ⟨hcompletes, hold⟩
    refine Ends.bind (Ends.get (Ends.pure ⟨hcompletes, fun id hid hne => ?_, fun _ hc => hc,
      fun hnone => ?_⟩))
    · rw [hold id hid, varOf_notePart, if_neg fun he => hne he.1.symm]
    · rw [hold b.var hvar, hset] at hnone
      cases hnone

/-- The members of a struct are added one after the other. -/
theorem allocateMembers_completes (hlayout : LaysPart T P D layout) {name : String} :
    ∀ (members : List (String × String)) {m : Memory}, Linked none m → m.block? a = some b →
      (m.varOf b.var).name = name →
      (∀ e ∈ members, P (.member e.2) ∧ m.HasSlot T b (.member e.2) e.1) →
      (D → (members.map Prod.snd).Nodup ∧
        ∀ e ∈ members, (m.varOf b.var).parts.get? (.member e.2) = none) →
      Ends (allocateMembers layout name a b.var members) m
        (fun _ m' => Completes T P D m m' ∧
          (∀ e ∈ members, ∃ c, (m'.varOf b.var).parts.get? (.member e.2) = some c) ∧
          ∀ id < m.vars.size, id ≠ b.var → m'.varOf id = m.varOf id) (Stops T P D m)
  | [], _, h, _, _, _, _ => Ends.pure ⟨.refl h, nofun, fun _ _ _ => rfl⟩
  | (type, member) :: rest, m, h, hb, hname, hslots, hfresh => by
      have hvar := h.var_lt hb
      obtain ⟨hp, hslot⟩ := hslots (type, member) (List.mem_cons_self ..)
      have hpart := hlayout.ends h hb hp hslot (fun hD => (hfresh hD).2 _ (List.mem_cons_self ..))
        fun hs => hs.elim
      have hchild :
          (m.varOf b.var).name ++ (Slot.member member).suffix = name ++ "." ++ member := by
        rw [hname, Slot.suffix, String.append_assoc]
      rw [hchild] at hpart
      refine Ends.bind
        (Ends.get (Ends.bind (Ends.modify (Ends.bind (hpart.mono ?_ fun _ _ he => he)))))
      rintro _ m₁ ⟨hcompletes, hold⟩
      have hl₁ := (hcompletes.changes.after h).linked
      have hb₁ := hcompletes.changes.block hb
      have hgrows := hcompletes.changes.var h hvar
      have hparts : ∀ s, (m₁.varOf b.var).parts.get? s =
          if Slot.member member = s then some m.next else (m.varOf b.var).parts.get? s := by
        intro s
        rw [hold _ hvar, varOf_notePart, if_pos ⟨rfl, hvar⟩, Table.get?_set]
      refine (allocateMembers_completes hlayout rest hl₁ hb₁
        ((congrArg Variable.name hgrows.same).trans hname) ?_ ?_).mono ?_ ?_
      · intro e he
        obtain ⟨hp, hslot⟩ := hslots e (List.mem_cons_of_mem _ he)
        exact ⟨hp, hslot.growsTo hgrows⟩
      · intro hD
        obtain ⟨hnodup, hnone⟩ := hfresh hD
        rw [List.map_cons, List.nodup_cons] at hnodup
        refine ⟨hnodup.2, fun e he => ?_⟩
        have hne : Slot.member member ≠ .member e.2 := by
          intro hsame
          have hmem : e.2 ∈ rest.map Prod.snd := List.mem_map_of_mem he
          exact hnodup.1 (Slot.member.inj hsame ▸ hmem)
        rw [hparts, if_neg hne]
        exact hnone e (List.mem_cons_of_mem _ he)
      · rintro _ m₂ ⟨hcompletes', hmembers, hold'⟩
        have hsize := (hcompletes.changes.after h).grows.vars
        refine ⟨hcompletes.trans h hcompletes', fun e he => ?_, fun id hid hne => ?_⟩
        · rcases List.mem_cons.mp he with rfl | he
          · have hset := hparts (.member member)
            rw [if_pos rfl] at hset
            obtain ⟨c, hc, _⟩ :=
              (hcompletes'.changes.var hl₁ (Nat.lt_of_lt_of_le hvar hsize)).part _ _ hset
            exact ⟨c, hc⟩
          · exact hmembers e he
        · rw [hold' id (Nat.lt_of_lt_of_le hid hsize) hne, hold id hid, varOf_notePart,
            if_neg fun he => hne he.1.symm]
      · exact fun _ _ hstops => hstops.after hcompletes.changes

/-- The parts of a block are added as its type says. -/
theorem allocateParts_completes (hT : Admits T P D) (hlayout : LaysPart T P D layout)
    (h : Linked none m) (hb : m.block? a = some b)
    (hfresh : D → ∀ s, (m.varOf b.var).parts.get? s = none) :
    Ends (allocateParts T layout (m.varOf b.var).name (m.layoutType T b) a b.var) m
      (fun _ m' => Completes T P D m m' ∧ m'.Complete T b ∧ ∀ id < m.vars.size, id ≠ b.var →
        m'.varOf id = m.varOf id) (Stops T P D m) := by
  have hvar := h.var_lt hb
  unfold allocateParts
  split
  · next hbasic =>
    refine Ends.pure ⟨.refl h, fun hnot => ?_, fun _ _ _ => rfl⟩
    rw [hbasic] at hnot
    cases hnot
  next hbasic =>
  split
  · next harray =>
    refine Ends.bind ((elementWith_completes hlayout h hb (s := .anyElement) trivial hT.any).mono ?_
      fun _ _ he => he)
    rintro _ m' ⟨hcompletes, hold, _⟩
    have htype := layoutType_growsTo (T := T) (hcompletes.changes.var h hvar)
    refine Ends.pure ⟨hcompletes, fun _ harray' => ?_, hold⟩
    rw [htype, harray] at harray'
    cases harray'
  next harray =>
  split
  · next r hr =>
    refine (allocateMembers_completes hlayout r.members h hb rfl ?_ ?_).mono ?_ fun _ _ he => he
    · intro e he
      exact ⟨hT.member _ r hr e he, by simpa using hbasic, by simpa using harray, r, hr, he⟩
    · exact fun hD => ⟨hT.distinct hD _ r hr, fun _ _ => hfresh hD _⟩
    · rintro _ m' ⟨hcompletes, hmembers, hold⟩
      have htype := layoutType_growsTo (T := T) (hcompletes.changes.var h hvar)
      refine ⟨hcompletes, fun _ _ => ⟨r, ?_, hmembers⟩, hold⟩
      rw [htype, hr]
  · exact Ends.throw ⟨id, fun _ => .refl⟩

/-- A layout within a bound adds the part that is asked for, and its parts. -/
theorem allocateWithin_laysPart (hT : Admits T P D) :
    ∀ bound : Nat, LaysPart T P D fun n t p => allocateWithin T bound n t p none
  | 0 => ⟨fun _ _ _ _ _ _ => Ends.throw ⟨id, fun hne => absurd rfl hne⟩⟩
  | bound + 1 => by
      constructor
      intro m a b s type h hb hp hslot hnone habsent
      generalize hname : (m.varOf b.var).name ++ s.suffix = name at habsent
      have hchange := Change.add hb hp hslot hnone (hname ▸ habsent)
      rw [hname] at hchange
      have hl := (hchange.after h).linked
      -- the new block, which is the last
      have hnext : ((m.notePart b.var s m.next).withPart name a
          (partVariable T name (T.decode type) m.next)).block? m.next =
            some { address := m.next, parent := a, var := m.vars.size } := by
        rw [← size_notePart m b.var s m.next]
        exact block?_withPart_next (m := m.notePart b.var s m.next) h.next name a _
      have hnew : ((m.notePart b.var s m.next).withPart name a
          (partVariable T name (T.decode type) m.next)).varOf m.vars.size =
            partVariable T name (T.decode type) m.next := by
        rw [varOf_withPart, size_notePart, if_pos rfl]
      have hparts := allocateParts_completes hT (allocateWithin_laysPart hT bound) hl hnext
        fun _ _ => by rw [hnew]; rfl
      have htype : ((m.notePart b.var s m.next).withPart name a
          (partVariable T name (T.decode type) m.next)).layoutType T
            { address := m.next, parent := a, var := m.vars.size } = T.decode type := by
        have hne : a ≠ 0 := Nat.ne_of_gt (h.lt_next_of_block hb).1
        rw [layoutType, if_neg hne]
        exact congrArg Variable.type hnew
      rw [htype] at hparts
      dsimp only at hparts
      rw [hnew] at hparts
      unfold allocateWithin
      refine Ends.bind (Ends.get (Ends.bind_ok rfl (Ends.bind (Ends.modify (Ends.bind ?_)))))
      have hsize : (m.notePart b.var s m.next).vars.size = m.vars.size := size_notePart ..
      rw [← hsize] at hparts
      refine hparts.mono ?_ fun _ _ hstops => hstops.after (.single hchange)
      rintro _ m' ⟨hcompletes, hcomplete, hold⟩
      refine Ends.pure
        ⟨⟨.head hchange hcompletes.changes, fun c b' hle hb' => ?_⟩, fun id hid => ?_⟩
      · by_cases hc : c = m.next
        · subst hc
          rw [← hsize] at hnext
          cases hb'.symm.trans (hcompletes.changes.block hnext)
          exact hcomplete
        · exact hcompletes.complete c b' (Nat.lt_of_le_of_ne hle (Ne.symm hc)) hb'
      · rw [hold id ?_ (by rw [hsize]; exact Nat.ne_of_lt hid), varOf_withPart, hsize,
          if_neg (Nat.ne_of_lt hid)]
        show id < (Array.push _ _).size
        rw [Array.size_push, hsize]
        exact Nat.lt_succ_of_lt hid

theorem allocate_laysPart (hT : Admits T P D) : LaysPart T P D fun n t p => allocate T n t p none :=
  ⟨fun h hb hp hslot hnone habsent =>
    Ends.bind (Ends.get ((allocateWithin_laysPart hT _).ends h hb hp hslot hnone habsent))⟩

end Layouts

/-! ## Following paths -/

/-- The name of the block that steps lead to from a block of the given name. -/
def nameAlong : String → List Step → Option String
  | name, [] => some name
  | name, .member m :: rest => nameAlong (name ++ (Slot.member m).suffix) rest
  | name, .index text :: rest =>
    match slotOf text with
    | .ok (some s) => nameAlong (name ++ s.suffix) rest
    | _ => none
  | _, .broken :: _ => none

theorem Linked.part_name (h : Linked none m) (hc : (m.varOf id).parts.get? s = some c) :
    m.nameAt? c = some ((m.varOf id).name ++ s.suffix) := by
  rcases h.part id s c hc with hname | ⟨howed, _⟩
  · exact hname
  · cases howed

/-- Following steps adds parts, and leads to a block with the name that the steps say. -/
theorem follow_completes (hT : Admits T P D) :
    ∀ (steps : List Step) {m : Memory} {a : Nat} {name : String}, Linked none m →
      m.nameAt? a = some name →
      Ends (follow T a steps) m
        (fun found m' => Completes T P D m m' ∧ ∀ c, found = some c →
          nameAlong name steps = m'.nameAt? c ∧ (m'.nameAt? c).isSome) (Stops T P D m)
  | [], m, a, name, h, ha => by
      refine Ends.pure ⟨.refl h, ?_⟩
      rintro _ ⟨⟩
      exact ⟨ha.symm, by rw [ha]; rfl⟩
  | step :: rest, m, a, name, h, ha => by
      obtain ⟨b, hb, hname⟩ := Option.map_eq_some_iff.mp ha
      have hvar := h.var_lt hb
      subst hname
      refine Ends.bind_ok (variableAt_ok h hb) ?_
      cases step with
      | broken => exact Ends.pure ⟨.refl h, nofun⟩
      | member mem =>
        dsimp only
        split
        · next c hc => exact follow_completes hT rest h (h.part_name hc)
        · exact Ends.pure ⟨.refl h, nofun⟩
      | index text =>
        refine Ends.bind (Ends.orFault ?_ fun e he => ⟨(slotOf_fault he).2, fun _ => .refl⟩)
        intro slot hslot
        cases slot with
        | none => exact Ends.pure ⟨.refl h, nofun⟩
        | some s =>
          have halong : nameAlong (m.varOf b.var).name (.index text :: rest) =
              nameAlong ((m.varOf b.var).name ++ s.suffix) rest := by
            rw [nameAlong, hslot]
          rw [halong]
          dsimp only
          split
          · next c hc => exact follow_completes hT rest h (h.part_name hc)
          · have helement := elementWith_completes (allocate_laysPart hT) h hb
              (isElement_of_slotOf hslot) (hT.index text s hslot)
            refine Ends.bind (helement.mono ?_ fun _ _ he => he)
            rintro (_ | c) m₁ ⟨hcompletes, _, hfound⟩
            · exact Ends.pure ⟨hcompletes, nofun⟩
            · have hl₁ := (hcompletes.changes.after h).linked
              have hsame := congrArg Variable.name (hcompletes.changes.var h hvar).same
              have hc := hl₁.part_name (hfound.1 c rfl)
              rw [hsame] at hc
              refine (follow_completes hT rest hl₁ hc).mono ?_
                fun _ _ hstops => hstops.after hcompletes.changes
              exact fun _ _ ⟨hcompletes', hfound'⟩ => ⟨hcompletes.trans h hcompletes', hfound'⟩

/-- A name that is found is that of the block, or the block is at the end of its path. -/
theorem resolve_completes (hT : Admits T P D) (name : String) (h : Linked none m) :
    Ends (resolve T name) m
      (fun found m' => Completes T P D m m' ∧ ∀ c, found = some c → (m'.nameAt? c).isSome ∧
        (m.address? name = some c ∨ m.address? name = none ∧
          nameAlong (Path.parse name).1 (Path.parse name).2 = m'.nameAt? c)) (Stops T P D m) := by
  unfold resolve
  split
  · exact Ends.pure ⟨.refl h, nofun⟩
  refine Ends.bind (Ends.get ?_)
  split
  · next a ha =>
    refine Ends.pure ⟨.refl h, ?_⟩
    rintro _ ⟨⟩
    exact ⟨by rw [h.name name a ha]; rfl, .inl ha⟩
  next habsent =>
  split
  next root steps hparse =>
  split
  · exact Ends.pure ⟨.refl h, nofun⟩
  refine Ends.bind (Ends.get ?_)
  split
  · next a ha =>
    refine (follow_completes hT steps h (h.name root a ha)).mono ?_ fun _ _ he => he
    rintro found m' ⟨hcompletes, hfound⟩
    refine ⟨hcompletes, fun c hc => ?_⟩
    obtain ⟨halong, hsome⟩ := hfound c hc
    exact ⟨hsome, .inr ⟨habsent, by rw [hparse]; exact halong⟩⟩
  · exact Ends.pure ⟨.refl h, nofun⟩

/-! ## Roots -/

/-- The memory with a block for a declared variable. -/
def withRoot (m : Memory) (id : VarId) : Memory := m.withBlock (m.varOf id).name 0 id

/-- The block of a new root. -/
def rootBlock (m : Memory) (id : VarId) : Block := { address := m.next, parent := 0, var := id }

theorem Linked.withRoot (h : Linked none m) (hid : id < m.vars.size) :
    Linked none (m.withRoot id) :=
  h.withBlock nofun hid rfl h.pos

theorem grows_withRoot (h : Linked none m) (id : VarId) : Grows m (m.withRoot id) :=
  grows_withBlock h rfl 0

theorem block?_withRoot (h : Linked none m) (id : VarId) :
    (m.withRoot id).block? m.next = some (m.rootBlock id) := by
  rw [withRoot, block?_withBlock h, if_pos rfl]
  rfl

/-- A declared variable gets a block and its parts. -/
theorem allocate_root_completes (hT : Admits T P D) (h : Linked none m)
    (hid : id < m.vars.size) (hfresh : D → ∀ s, (m.varOf id).parts.get? s = none) :
    Ends (allocate T (m.varOf id).name (m.varOf id).type 0 (some id)) m
      (fun a m' => a = m.next ∧ Completes T P D (m.withRoot id) m' ∧
        m'.Complete T (m.rootBlock id) ∧ ∀ j < m.vars.size, j ≠ id → m'.varOf j = m.varOf j)
      (Stops T P D (m.withRoot id)) := by
  obtain ⟨bound, hbound⟩ : ∃ bound, layoutBound T m (m.varOf id).type = bound + 1 := ⟨_, rfl⟩
  have hparts := allocateParts_completes hT (allocateWithin_laysPart hT bound) (h.withRoot hid)
    (block?_withRoot h id) hfresh
  have htype : (m.withRoot id).layoutType T (m.rootBlock id) = T.decode (m.varOf id).type :=
    if_pos rfl
  rw [htype] at hparts
  refine Ends.bind (Ends.get ?_)
  rw [hbound, allocateWithin]
  refine Ends.bind (Ends.get (Ends.bind_ok rfl (Ends.bind (Ends.modify (Ends.bind ?_)))))
  refine hparts.mono ?_ fun _ _ he => he
  rintro _ m' ⟨hcompletes, hcomplete, hold⟩
  exact Ends.pure ⟨rfl, hcompletes, hcomplete, hold⟩

/-- A declared variable gets a block, its parts and an address. -/
theorem allocateRoot_completes (hT : Admits T P D) (h : Linked none m)
    (hid : id < m.vars.size) (hfresh : D → ∀ s, (m.varOf id).parts.get? s = none) :
    Ends (allocateRoot T id) m
      (fun a m' => a = m.next ∧ ∃ m₁, Completes T P D (m.withRoot id) m₁ ∧
        m₁.Complete T (m.rootBlock id) ∧ (∀ j < m.vars.size, j ≠ id → m₁.varOf j = m.varOf j) ∧
        m' = m₁.setVar id fun v => { v with address := m.next }) (Stops T P D (m.withRoot id)) := by
  refine Ends.bind (Ends.get (Ends.bind ?_))
  refine (allocate_root_completes hT h hid hfresh).mono ?_ fun _ _ he => he
  rintro _ m₁ ⟨rfl, hcompletes, hcomplete, hold⟩
  exact Ends.bind (Ends.modify (Ends.pure ⟨rfl, m₁, hcompletes, hcomplete, hold, rfl⟩))

/-! ## Layouts that end -/

/-- A step that adds parts keeps what additions keep.  Where `N` holds it has to end. -/
theorem Lays.of_changes {α : Type} {x : MemM α} {Q : α → Memory → Prop} {J : Memory → Prop}
    {N : Prop} (h : Ends x m Q (Stops T P D m')) (hq : ∀ a m'', Q a m'' → Changes T P D m' m'')
    (hJ : ∀ {m''}, Changes T P D m' m'' → J m'')
    (hend : N → ∀ e m'', x m = .error e m'' → e ≠ .endless) : Lays N J x m where
  value a m'' hx := hJ (hq a m'' (h.value a m'' hx))
  fault e m'' hx :=
    ⟨fun he hN => hend hN e m'' hx he, fun hne => hJ ((h.fault e m'' hx).changes hne)⟩

/-- To be linked and to come after another memory. -/
theorem building_after (T : TypeTable) (m₀ : Memory) :
    Building T T.WellNested Slot.IsElement m₀ (After m₀) where
  linked h := h.linked
  vars h := h.grows.vars
  setVar id _ h := h.setVar id
  pointers h := h.sameBlocks
  declare {_ v} h hv := ⟨h.linked.declare hv, h.grows.trans (grows_declare h.linked v)⟩
  root {m id} h hid := by
    have hroot : After m₀ (m.withRoot id) :=
      h.trans ⟨h.linked.withRoot hid, grows_withRoot h.linked id⟩
    refine .of_changes (allocate_root_completes (admits_all T) h.linked hid False.elim)
      (fun _ _ hr => hr.2.1.changes) (fun hc => hroot.trans (Changes.after hc hroot.linked))
        fun hT => ?_
    exact (spreads_next.allocate_given h.linked.next hroot.linked.next trivial trivial
      ((settled_next hT).imp fun hT => hT.root m _)).fault
  element {m a name s} h ha hs := by
    obtain ⟨b, hb, rfl⟩ := Option.map_eq_some_iff.mp ha
    have hlays : Lays T.WellNested (After m) (element T a (m.varOf b.var).name s) m :=
      .of_changes (elementWith_completes (allocate_laysPart (admits_all T)) h.linked hb hs trivial)
        (fun _ _ hr => hr.1.changes) (fun hc => Changes.after hc h.linked)
        fun hT => (spreads_next.element_ends (settled_next hT) a _ hs h.linked.next).fault
    exact Ends.mono hlays (fun _ _ hm' => ⟨h.trans hm', hm'.grows.name a _ ha⟩)
      fun _ _ he => ⟨he.1, fun hne => h.trans (he.2 hne)⟩
  resolve name := ⟨fun _ h => .of_changes (resolve_completes (admits_all T) name h.linked)
    (fun _ _ hr => hr.1.changes) (fun hc => h.trans (Changes.after hc h.linked))
    fun hT => (spreads_next.resolve_ends (settled_next hT) name h.linked.next).fault⟩

end Memory

end Footprint
