import Footprint.Proofs.Memory.Layout
import Footprint.Proofs.Walk

/-!
# What steps on the memory are made of

Every step on the memory is put together from a few small changes: a part of a
variable gets its address, a new variable gets a block, a function is noted as a
reader or a writer, and the pointers to a block change.  A property that each of
these keeps is kept by every lookup and by every mark.  `Steady` lists them.

Lookups lay out elements that are not there yet.  The name of such an element
ends in a bracket, and below it the layout goes on with members.  `Steady` has a
parameter for the names that blocks may be added under, which these two facts
have to lead to.
-/

namespace Footprint

/-- The variable has no parts and no marks yet. -/
structure Variable.Blank (v : Variable) : Prop where
  parts : v.parts = {}
  readers : v.readers = {}
  writers : v.writers = {}

/-- The slot of an element of an array. -/
def Slot.IsElement : Slot → Prop
  | .member _ => False
  | .element _ => True
  | .anyElement => True

theorem Slot.IsElement.suffix {s : Slot} (h : s.IsElement) (name : String) :
    ∃ start, name ++ s.suffix = start ++ "]" := by
  cases s with
  | member m => exact h.elim
  | element i =>
    exact ⟨name ++ ("[" ++ toString i), by rw [Slot.suffix, ← String.append_assoc]⟩
  | anyElement => exact ⟨name ++ "[?", by rw [String.append_assoc]; rfl⟩

/-- What the initialiser of a pointer is. -/
inductive Initial where
  | copyOf (pointer : String)
  | addressOf (path : String)

/-- What the initialiser of a pointer is, if it can mean an address. -/
def Node.initial? : Node → Option Initial
  | .mk i cs _ =>
    match i.kind with
    | .implicit | .paren | .cast =>
      match cs with
      | c :: _ => initial? c
      | [] => none
    | .unary =>
      if i.tokens.contains "&" then
        ((cs.head?.bind Node.globalAccess?).filter (!·.isEmpty)).map .addressOf
      else none
    | .declRef => some (.copyOf i.spelling)
    | _ => none

namespace Memory

/-- The memory with a new variable and a block for it. -/
def withPart (m : Memory) (name : String) (parent : Nat) (v : Variable) : Memory :=
  ({ m with vars := m.vars.push v } : Memory).withBlock name parent m.vars.size

/-- The small changes of the memory keep a property, where a block may be added under a new name
and the marks are those of `f`. -/
structure Steady (f : String) (New : String → Prop) (J : Memory → Prop) : Prop where
  element : ∀ {m start}, J m → m.address? (start ++ "]") = none → New (start ++ "]")
  member : ∀ {name member}, New name → New (name ++ "." ++ member)
  /-- A part is the next block, or an element that is there. -/
  part : ∀ {m id s a}, J m → (a = m.next ∨ ∃ start, m.address? (start ++ "]") = some a) →
    J (m.setVar id fun v => { v with parts := v.parts.set s a })
  block : ∀ {m name parent v}, J m → New name → v.Blank → J (m.withPart name parent v)
  pointers : ∀ {m m'}, J m → SameBlocks m m' → J m'
  read : ∀ {m id}, J m → J (m.setVar id (·.markRead f))
  write : ∀ {m id}, J m → J (m.setVar id (·.markWrite f))

/-! ## Looking at blocks -/

variable {m : Memory} {a : Nat} {name : String} {T : TypeTable}

theorem block?_withBlock_of_some {b : Block} (hb : m.block? a = some b) (name : String)
    (parent : Nat) (id : VarId) : (m.withBlock name parent id).block? a = some b := by
  have hlt := (Array.getElem?_eq_some_iff.mp (block?_eq_some hb)).1
  unfold block? withBlock
  rw [Array.getElem?_push, if_neg (Nat.ne_of_lt hlt)]
  exact hb

theorem address?_withBlock (m : Memory) (name : String) (parent : Nat) (id : VarId) (n : String) :
    (m.withBlock name parent id).address? n = if name = n then some m.next else m.address? n := by
  rw [address?, withBlock, Table.get?_set]
  rfl

theorem block?_of_withBlock {b : Block} {parent : Nat} {id : VarId}
    (hb : (m.withBlock name parent id).block? a = some b) :
    m.block? a = some b ∨ b.var = id ∧ b.parent = parent := by
  unfold block? withBlock at hb
  rw [Array.getElem?_push] at hb
  split at hb
  · cases hb
    exact .inr ⟨rfl, rfl⟩
  · exact .inl hb

/-- Every block is one of before but for its pointers. -/
theorem SameBlocks.exists_block {m' : Memory} (hs : SameBlocks m m') {b' : Block}
    (hb' : m'.block? a = some b') :
    ∃ b, m.block? a = some b ∧ b'.var = b.var ∧ b'.parent = b.parent := by
  cases hb : m.block? a with
  | none =>
    rw [hs.noBlock a hb] at hb'
    cases hb'
  | some b =>
    obtain ⟨b'', hb'', _, hparent, hv⟩ := hs.block a b hb
    cases hb'.symm.trans hb''
    exact ⟨b, rfl, hv, hparent⟩

section Looking

variable {J : Memory → Prop}

theorem keeps_blockAt (a : Int) : Keeps J (blockAt a) := (blockAt_safe a).keeps

theorem keeps_variableAt (a : Int) : Keeps J (variableAt a) := by
  refine .bind (keeps_blockAt a) fun b => ?_
  cases b with
  | none => exact .pure _
  | some b => exact .bind .get fun m => .pure _

theorem keeps_change {id : VarId} {f : Variable → Variable} (h : ∀ m, J m → J (m.setVar id f)) :
    Keeps J (change id f) :=
  .modify h

end Looking

theorem isElement_of_slotOf {text : String} {s : Slot} (h : slotOf text = .ok (some s)) :
    s.IsElement := by
  unfold slotOf at h
  split at h
  · cases h
    trivial
  · split at h
    · cases hd : Text.readDigits text with
      | error e => rw [hd] at h; cases h
      | ok i => rw [hd] at h; cases h; trivial
    · cases h

/-! ## Paths without steps -/

theorem plainPart_append (cs : List Char) :
    (Path.plainPart cs).1 ++ (Path.plainPart cs).2 = cs := by
  induction cs with
  | nil => rfl
  | cons c cs ih =>
    unfold Path.plainPart
    split
    · rfl
    · exact congrArg (c :: ·) ih

theorem steps_cons_ne_nil (c : Char) (cs : List Char) : Path.steps (c :: cs) ≠ [] := by
  show Path.stepsWithin (cs.length + 1) (c :: cs) ≠ []
  unfold Path.stepsWithin
  split
  · dsimp only
    split <;> simp
  · split <;> simp

/-- A path without steps is its root. -/
theorem root_eq_of_parse {root : String} (h : Path.parse name = (root, [])) : root = name := by
  have hroot : String.ofList (Path.plainPart name.toList).1 = root := congrArg Prod.fst h
  have hsteps : Path.steps (Path.plainPart name.toList).2 = [] := congrArg Prod.snd h
  have happend := plainPart_append name.toList
  cases hrest : (Path.plainPart name.toList).2 with
  | nil =>
    rw [hrest, List.append_nil] at happend
    rw [← hroot, happend, String.ofList_toList]
  | cons c cs =>
    rw [hrest] at hsteps
    exact absurd hsteps (steps_cons_ne_nil c cs)

/-! ## Initialisers -/

/-- The address that an initialiser gives depends on what it is alone. -/
theorem initialTarget_eq (pointers : Table String (Option Int)) (init : Node) :
    initialTarget T pointers init =
      match init.initial? with
      | some (.copyOf pointer) => return (pointers.get? pointer).join
      | some (.addressOf path) => do return (← resolve T path).map Int.ofNat
      | none => return none := by
  obtain ⟨i, cs, d⟩ := init
  unfold initialTarget Node.initial?
  cases i.kind
  all_goals dsimp only
  case implicit | paren | cast =>
    cases cs with
    | nil => rfl
    | cons c cs => exact initialTarget_eq pointers c
  case unary =>
    split
    · cases (cs.head?.bind Node.globalAccess?).filter (!·.isEmpty) with
      | none => rfl
      | some path => rfl
    · rfl
termination_by sizeOf init

/-! ## Laying out parts -/

/-- Adding parts keeps a property, where a block may be added under a new name.  A part is added
where there is none, or to a variable that is laid out.  A fault leaves `E`, but for the one of a
layout that never ends. -/
structure Spreads (Own : VarId → Prop) (New : String → Prop) (J : Memory → Prop)
    (E : Fault → Memory → Prop) : Prop where
  own : ∀ {m}, J m → Own m.vars.size
  element : ∀ {m start}, J m → m.address? (start ++ "]") = none → New (start ++ "]")
  member : ∀ {name member}, New name → New (name ++ "." ++ member)
  part : ∀ {m i s a}, J m → (a = m.next ∨ ∃ start, m.address? (start ++ "]") = some a) →
    ((m.varOf i).parts.get? s = none ∨ Own i) →
    J (m.setVar i fun v => { v with parts := v.parts.set s a })
  block : ∀ {m name parent v}, J m → New name → v.Blank → J (m.withPart name parent v)
  fault : ∀ {m e}, J m → e ≠ .endless → E e m

/-- A layout that never ends leaves `E`, or `N` excludes it where a new block is found at its
address. -/
def Settled (J : Memory → Prop) (E : Fault → Memory → Prop) (N : Prop) : Prop :=
  (∀ m, J m → E .endless m) ∨ N ∧ ∀ m, J m → m.next = m.blocks.size

theorem Settled.imp {J : Memory → Prop} {E : Fault → Memory → Prop} {N N' : Prop}
    (h : Settled J E N) (hn : N → N') : Settled J E N' :=
  h.imp_right fun hr => ⟨hn hr.1, hr.2⟩

/-- The address is that of a part of a variable, or of an element of an array. -/
def LeadsTo (m : Memory) (a : Nat) : Prop :=
  (∃ id s, (m.varOf id).parts.get? s = some a) ∨ ∃ start, m.address? (start ++ "]") = some a

/-- The type that the variable at an address is spelled with. -/
def typeAt (m : Memory) (a : Nat) : String :=
  ((m.block? a).map fun b => (m.varOf b.var).type).getD ""

theorem typeAt_withBlock (hnext : m.next = m.blocks.size) (name : String) (parent : Nat)
    (id : VarId) : (m.withBlock name parent id).typeAt m.next = (m.varOf id).type := by
  have hb : (m.withBlock name parent id).block? m.next =
      some { address := m.next, parent, var := id } := by
    show ((m.blocks.push _)[m.next]?).join = _
    rw [hnext, Array.getElem?_push_size]
    rfl
  rw [typeAt, hb]
  rfl

section Spreads

variable {Own : VarId → Prop} {New : String → Prop} {J : Memory → Prop} {E : Fault → Memory → Prop}
variable {T : TypeTable}

section Layout

variable {layout : Layout} {D : String → Prop} (h : Spreads Own New J E)
  (hl : ∀ {m : Memory} (name type : String) (parent : Nat), J m → New name → D type →
    Ends (layout name type parent) m (fun _ => J) E)

include h hl

/-- Looking for an element keeps the invariant. -/
theorem Spreads.elementWith_ends (array : Nat) (name : String) {s : Slot} (hs : s.IsElement)
    {m : Memory} (hm : J m) (hD : ∀ base n, T.element (m.typeAt array) = .ok (base, n) → D base) :
    Ends (elementWith T layout array name s) m
      (fun found m' => J m' ∧ ∀ a, found = some a → m'.LeadsTo a) E := by
  rcases variableAt_cases array m with ⟨e, hne, he⟩ | hv
  · exact .of_error (bind_of_error he) (h.fault hm hne)
  · refine Ends.bind_ok hv ?_
    unfold typeAt at hD
    cases hb : m.block? array with
    | none => exact Ends.pure ⟨hm, nofun⟩
    | some b =>
      rw [hb] at hD
      dsimp only [Option.map_some]
      split
      · exact Ends.pure ⟨hm, nofun⟩
      · split
        · next a ha => exact Ends.pure ⟨hm, fun _ hc => .inl ⟨b.var, s, by rw [ha, hc]⟩⟩
        · next hnone =>
          refine Ends.bind (Ends.orFault (fun base hbase => Ends.bind (Ends.get ?_)) fun _ he =>
            h.fault hm (element_fault he).1)
          obtain ⟨start, hstart⟩ := hs.suffix name
          rw [hstart]
          cases hc : m.address? (start ++ "]") with
          | some a =>
            refine Ends.bind
              (Ends.modify (Ends.pure ⟨h.part hm (.inr ⟨start, hc⟩) (.inl hnone), ?_⟩))
            exact fun _ ha => .inr ⟨start, by rw [← ha]; exact hc⟩
          | none =>
            have hparts := hl (start ++ "]") base.1 array
              (h.part (i := b.var) (s := s) hm (.inl rfl) (.inl hnone)) (h.element hm hc)
              (hD base.1 base.2 hbase)
            refine Ends.bind (Ends.get (Ends.bind (Ends.modify (Ends.bind ?_))))
            refine hparts.mono (fun _ m' hm' => ?_) fun _ _ he => he
            exact Ends.bind (Ends.get (Ends.pure ⟨hm', fun a ha => .inl ⟨b.var, s, ha⟩⟩))

variable {id : VarId}

theorem Spreads.allocateMembers {name : String} (hn : New name) (a : Nat)
    (hown : Own id) :
    ∀ (members : List (String × String)) {m : Memory}, J m → (∀ e ∈ members, D e.1) →
      Ends (allocateMembers layout name a id members) m (fun _ => J) E
  | [], _, hm, _ => Ends.pure hm
  | (type, member) :: rest, m, hm, hD => by
    have hparts := hl (name ++ "." ++ member) type a
      (h.part (i := id) (s := .member member) hm (.inl rfl) (.inr hown)) (h.member hn)
      (hD _ (List.mem_cons_self ..))
    refine Ends.bind (Ends.get (Ends.bind (Ends.modify (Ends.bind ?_))))
    exact hparts.mono (fun _ _ hm' => Spreads.allocateMembers hn a hown rest hm' fun e he =>
      hD e (List.mem_cons_of_mem _ he)) fun _ _ he => he

theorem Spreads.allocateParts {name : String} (hn : New name) (type : String) (a : Nat)
    (hown : Own id) {m : Memory} (hm : J m)
    (hD : ∀ t, T.HasPart (m.typeAt a) type (T.decode t) → D t) :
    Ends (allocateParts T layout name type a id) m (fun _ => J) E := by
  unfold Memory.allocateParts
  split
  · exact Ends.pure hm
  · next hbasic =>
    have hbasic : T.isBasic type = false := by simpa using hbasic
    split
    · next harray =>
      refine Ends.bind ((h.elementWith_ends hl a name (s := .anyElement) trivial hm ?_).mono
        (fun _ _ hr => Ends.pure hr.1) fun _ _ he => he)
      exact fun base n he => hD base (.element hbasic harray he)
    · next harray =>
      split
      · next r hr =>
        refine h.allocateMembers hl hn a hown r.members hm fun e he => ?_
        exact hD e.1 (.member hbasic (by simpa using harray) hr he)
      · exact Ends.throw (h.fault hm (by simp))

end Layout

variable (h : Spreads Own New J E)

include h

theorem Spreads.allocateWithin : ∀ (bound : Nat) (name type : String) (parent : Nat) {m : Memory},
    J m → New name → Settled J E (T.NestsWithin bound (T.decode type) (T.decode type)) →
      Ends (allocateWithin T bound name type parent none) m (fun _ => J) E
  | 0, _, _, _, _, hm, _, hend => by
    rcases hend with hend | ⟨hn, _⟩
    · exact Ends.throw (hend _ hm)
    · exact hn.elim
  | bound + 1, name, type, parent, m, hm, hn, hend => by
    have hm' : J (m.withPart name parent (partVariable T name (T.decode type) m.next)) :=
      h.block hm hn ⟨rfl, rfl, rfl⟩
    -- the new variable and its block are one change
    refine Ends.bind (Ends.get (Ends.bind_ok rfl (Ends.bind (Ends.modify (Ends.bind ?_)))))
    refine (h.allocateParts (fun n t p => Spreads.allocateWithin bound n t p) hn (T.decode type)
      m.next (h.own hm) hm' fun t ht => ?_).mono (fun _ _ hr => Ends.pure hr) fun _ _ he => he
    refine hend.imp_right fun ⟨hnest, hnext⟩ => ⟨hnest _ ?_, hnext⟩
    have htype :
        (m.withPart name parent (partVariable T name (T.decode type) m.next)).typeAt m.next =
        T.decode type := by
      refine (typeAt_withBlock (m := { m with vars := m.vars.push _ }) (hnext m hm) name parent
        m.vars.size).trans ?_
      rw [varOf_push, if_pos rfl]
      rfl
    rwa [htype] at ht

variable {m : Memory}

/-- The variable of a layout is given, with a block that keeps the property. -/
theorem Spreads.allocate_given {name t : String} {parent : Nat} {id : VarId}
    (hm : J m) (hb : J (m.withBlock name parent id)) (hn : New name) (hown : Own id)
    (hend : Settled J E (T.NestsWithin (layoutBound T m t) (m.varOf id).type (T.decode t))) :
    Ends (allocate T name t parent (some id)) m (fun a m' => J m' ∧ a = m.next) E := by
  obtain ⟨bound, hbound⟩ : ∃ bound, layoutBound T m t = bound + 1 := ⟨_, rfl⟩
  refine Ends.bind (Ends.get ?_)
  rw [hbound] at hend ⊢
  refine Ends.bind (Ends.get (Ends.bind_ok rfl (Ends.bind (Ends.modify (Ends.bind ?_)))))
  refine (h.allocateParts (fun n t p => h.allocateWithin bound n t p) hn (T.decode t) m.next
    hown hb fun t ht => ?_).mono (fun _ _ hr => Ends.pure ⟨hr, rfl⟩) fun _ _ he => he
  refine hend.imp_right fun ⟨hnest, hnext⟩ => ⟨hnest _ ?_, hnext⟩
  rwa [typeAt_withBlock (hnext m hm)] at ht

variable (hend : Settled J E T.WellNested)

include hend

theorem Spreads.allocate (name type : String) (parent : Nat) (hm : J m)
    (hn : New name) : Ends (allocate T name type parent none) m (fun _ => J) E :=
  Ends.bind (Ends.get (h.allocateWithin _ name type parent hm hn
    (hend.imp fun hT => hT.part m type)))

/-- Elements are found or laid out, wherever the address leads. -/
theorem Spreads.element_ends (array : Nat) (name : String) {s : Slot} (hs : s.IsElement)
    (hm : J m) :
    Ends (Memory.element T array name s) m
      (fun found m' => J m' ∧ ∀ a, found = some a → m'.LeadsTo a) E :=
  h.elementWith_ends (D := fun _ => True) (fun n t p hm hn _ => h.allocate hend n t p hm hn) array
    name hs hm fun _ _ _ => trivial

/-! ## Following paths -/

/-- Where steps lead: nowhere, or to a part or an element unless there are no steps. -/
theorem Spreads.follow_ends : ∀ (steps : List Step) (a : Nat) {m : Memory}, J m →
    Ends (follow T a steps) m
      (fun found m' => J m' ∧ ∀ c, found = some c → (steps = [] ∧ c = a) ∨ m'.LeadsTo c) E
  | [], a, _, hm => Ends.pure ⟨hm, fun c hc => .inl ⟨rfl, (Option.some.inj hc).symm⟩⟩
  | step :: rest, a, m, hm => by
    -- from a part or an element on, all that is reached is one
    have hgo : ∀ {c : Nat} {m' : Memory}, J m' → m'.LeadsTo c →
        Ends (Memory.follow T c rest) m'
          (fun found m'' => J m'' ∧ ∀ c', found = some c' →
            (step :: rest = [] ∧ c' = a) ∨ m''.LeadsTo c') E := by
      intro c m' hm' hc
      cases rest with
      | nil => exact Ends.pure ⟨hm', fun c' hc' => .inr (Option.some.inj hc' ▸ hc)⟩
      | cons next rest =>
        refine (Spreads.follow_ends (next :: rest) c hm').mono ?_ fun _ _ hr => hr
        rintro found m'' ⟨hm'', hfound⟩
        refine ⟨hm'', fun c' hc' => ?_⟩
        rcases hfound c' hc' with ⟨hnil, _⟩ | hleads
        · cases hnil
        · exact .inr hleads
    rcases variableAt_cases a m with ⟨e, hne, he⟩ | hv
    · exact .of_error (bind_of_error he) (h.fault hm hne)
    · refine Ends.bind_ok hv ?_
      cases m.block? a with
      | none => exact Ends.pure ⟨hm, nofun⟩
      | some b =>
        cases step with
        | broken => exact Ends.pure ⟨hm, nofun⟩
        | member name =>
          dsimp only [Option.map_some]
          split
          · next c hc => exact hgo hm (.inl ⟨_, _, hc⟩)
          · exact Ends.pure ⟨hm, nofun⟩
        | index text =>
          refine Ends.bind (Ends.orFault (fun s hs => ?_) fun _ he =>
            h.fault hm (slotOf_fault he).1)
          cases s with
          | none => exact Ends.pure ⟨hm, nofun⟩
          | some s =>
            dsimp only [Option.map_some]
            split
            · next c hc => exact hgo hm (.inl ⟨_, _, hc⟩)
            · have helement := h.element_ends hend a (m.varOf b.var).name
                (isElement_of_slotOf hs) hm
              refine Ends.bind (helement.mono ?_ fun _ _ hr => hr)
              rintro (_ | c) m' ⟨hm', hleads⟩
              · exact Ends.pure ⟨hm', nofun⟩
              · exact hgo hm' (hleads c rfl)

/-- A name that is found has an address of its own, or leads to a part or an element. -/
theorem Spreads.resolve_ends (name : String) (hm : J m) :
    Ends (resolve T name) m
      (fun found m' => J m' ∧ ∀ c, found = some c → m'.address? name = some c ∨ m'.LeadsTo c)
      E := by
  unfold resolve
  split
  · exact Ends.pure ⟨hm, nofun⟩
  · refine Ends.bind (Ends.get ?_)
    split
    · next a ha => exact Ends.pure ⟨hm, fun _ hc => .inl (hc ▸ ha)⟩
    · next hnone =>
      split
      next root steps hparse =>
      split
      · exact Ends.pure ⟨hm, nofun⟩
      · refine Ends.bind (Ends.get ?_)
        split
        · next a ha =>
          refine (h.follow_ends hend steps a hm).mono ?_ fun _ _ hr => hr
          rintro found m' ⟨hm', hfound⟩
          refine ⟨hm', fun c hc => ?_⟩
          rcases hfound c hc with ⟨rfl, rfl⟩ | hleads
          · rw [root_eq_of_parse hparse, hnone] at ha
            cases ha
          · exact .inr hleads
        · exact Ends.pure ⟨hm, nofun⟩

end Spreads

/-- Where no type contains itself, no layout goes on for ever. -/
theorem spreads_next :
    Spreads (fun _ => True) (fun _ => True) (fun m => m.next = m.blocks.size)
      fun e _ => e ≠ .endless where
  own _ := trivial
  element _ _ := trivial
  member _ := trivial
  part hm _ _ := hm
  block hm _ _ := by simp [withPart, withBlock, hm]
  fault _ hne := hne

theorem settled_next (hT : T.WellNested) :
    Settled (fun m => m.next = m.blocks.size) (fun e _ => e ≠ .endless) T.WellNested :=
  .inr ⟨hT, fun _ hm => hm⟩

section Steady

variable {f : String} {New : String → Prop} {J : Memory → Prop}

theorem Steady.spreads (h : Steady f New J) : Spreads (fun _ => True) New J fun _ => J :=
  ⟨fun _ => trivial, h.element, h.member, fun hm ha _ => h.part hm ha, h.block, fun hm _ => hm⟩

/-- Where all faults are the same, it does not matter whether a layout ends. -/
theorem settled_of_keeps {N : Prop} : Settled J (fun _ => J) N := .inl fun _ hm => hm

theorem Steady.resolve_ends (h : Steady f New J) (T : TypeTable) (name : String) {m : Memory}
    (hm : J m) :
    Ends (resolve T name) m
      (fun found m' => J m' ∧ ∀ c, found = some c → m'.address? name = some c ∨ m'.LeadsTo c)
      fun _ => J :=
  h.spreads.resolve_ends settled_of_keeps name hm

theorem Steady.resolve (h : Steady f New J) (T : TypeTable) (name : String) :
    Keeps J (resolve T name) :=
  ⟨fun _ hm => (h.resolve_ends T name hm).mono (fun _ _ hr => hr.1) fun _ _ hr => hr⟩

theorem Steady.initialTarget (h : Steady f New J) (T : TypeTable)
    (pointers : Table String (Option Int)) (n : Node) : Keeps J (initialTarget T pointers n) := by
  rw [initialTarget_eq]
  split
  · exact .pure _
  · exact .bind (h.resolve T _) fun _ => .pure _
  · exact .pure _

/-! ## Pointers to blocks -/

section Pointers

variable (hp : ∀ {m m' : Memory}, J m → SameBlocks m m' → J m')

include hp

theorem keeps_addRef (a : Int) (pointer : String) : Keeps J (addRef a pointer) :=
  (addRef_safe hp a pointer).keeps

theorem keeps_removeRef (a : Int) (pointer : String) : Keeps J (removeRef a pointer) :=
  (removeRef_safe hp a pointer).keeps

theorem keeps_clearRefs : Keeps J clearRefs := (clearRefs_safe hp).keeps

end Pointers

theorem Steady.addRef (h : Steady f New J) (a : Int) (pointer : String) :
    Keeps J (addRef a pointer) :=
  keeps_addRef h.pointers a pointer

theorem Steady.removeRef (h : Steady f New J) (a : Int) (pointer : String) :
    Keeps J (removeRef a pointer) :=
  keeps_removeRef h.pointers a pointer

theorem Steady.clearRefs (h : Steady f New J) : Keeps J clearRefs := keeps_clearRefs h.pointers

/-! ## Reads and writes -/

theorem keeps_read (h : ∀ m id, J m → J (m.setVar id (·.markRead f))) (a : Int) :
    Keeps J (read a f) :=
  (read_safe h a).keeps

theorem keeps_write (h : ∀ m id, J m → J (m.setVar id (·.markWrite f))) (a : Int) :
    Keeps J (write a f) :=
  (write_safe h a).keeps

theorem Steady.readAt (h : Steady f New J) (a : Int) : Keeps J (Memory.read a f) :=
  keeps_read (fun _ _ => h.read) a

theorem Steady.writeAt (h : Steady f New J) (a : Int) : Keeps J (Memory.write a f) :=
  keeps_write (fun _ _ => h.write) a

end Steady

end Memory

/-! ## Lookups in a body -/

/-- The function with nothing found out about it. -/
def Function.signature (f : Function) : Function :=
  { f with reads := {}, writes := {}, shared := {}, pointerEnds := {} }

theorem signature_shared (f : Function) (shared : NameSet) :
    { f with shared }.signature = f.signature := rfl

namespace Walk

/-- The memory and the pointers have a property each, and the functions their signatures. -/
structure Within (J : Memory → Prop) (K : Table String (Option Int) → Prop)
    (signatures : Array Function) (w : Walk) : Prop where
  memory : J w.memory
  pointers : K w.pointers
  functions : w.functions.map Function.signature = signatures

section Within

variable {J : Memory → Prop} {K : Table String (Option Int) → Prop} {signatures : Array Function}
variable {s : Scope} {New : String → Prop}

theorem keeps_onMemory {α : Type} {x : MemM α} (hx : Keeps J x) :
    Keeps (Within J K signatures) (onMemory x) :=
  hx.zoom_part (fun _ hw => hw.memory) fun _ _ hw hm => ⟨hm, hw.pointers, hw.functions⟩

theorem keeps_changeRoot {g : Function → Function} (hg : ∀ f, (g f).signature = f.signature) :
    Keeps (Within J K signatures) (changeRoot s g) :=
  .modify fun w hw =>
    ⟨hw.memory, hw.pointers, (map_modify hg w.functions s.root).trans hw.functions⟩

theorem keeps_noteName (use : Use) (name : String) :
    Keeps (Within J K signatures) (noteName s use name) := by
  cases use with
  | read => exact keeps_changeRoot fun _ => rfl
  | write => exact keeps_changeRoot fun _ => rfl

theorem keeps_mark (h : Memory.Steady s.name New J) (use : Use) (a : Int) :
    Keeps (Within J K signatures) (mark s use a) :=
  keeps_mark_of (keeps_onMemory (Memory.keeps_variableAt a)) (keeps_onMemory (h.readAt a))
    (keeps_onMemory (h.writeAt a)) (keeps_noteName use)
    fun _ _ hw => ⟨hw.memory, hw.pointers, hw.functions⟩

theorem keeps_markItself (h : Memory.Steady s.name New J) (use : Use) (a : Int) :
    Keeps (Within J K signatures) (markItself s use a) := by
  refine .bind (keeps_onMemory (Memory.keeps_variableAt a)) fun v => ?_
  cases v with
  | none => exact .pure _
  | some v =>
    refine .bind (keeps_onMemory (Memory.keeps_change fun m hm => ?_)) fun _ =>
      keeps_noteName use _
    cases use with
    | read => exact h.read hm
    | write => exact h.write hm

theorem keeps_share (name : String) : Keeps (Within J K signatures) (share s name) := by
  refine keeps_share_of name fun g hg => keeps_changeRoot fun f => ?_
  obtain ⟨shared, he⟩ := hg f
  rw [he, signature_shared]

/-- Lookups and marks keep what the small changes of the memory keep. -/
theorem looks_of_steady (h : Memory.Steady s.name New J) : Looks s (Within J K signatures) where
  address name := keeps_onMemory (h.resolve s.types name)
  look a := keeps_onMemory (Memory.keeps_variableAt a)
  mark := keeps_mark h
  markItself := keeps_markItself h
  share := keeps_share

end Within

end Walk

end Footprint
