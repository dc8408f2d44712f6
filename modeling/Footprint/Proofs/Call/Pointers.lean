import Footprint.Proofs.Call.Members
import Footprint.Proofs.Memory.Marked
import Footprint.Proofs.Memory.Reached

/-!
# Where a call leaves the pointers of the caller

A callee has a record of where pointers point at its end.  A call carries each
of its entries over to the caller, and makes the pointer there point to what the
entry says.  So after the call a global pointer points to where the last entry
says that is carried over to it, and without one to where it pointed before.

The record of a callee has an entry for every pointer that was known when its
body started, also for those that it never moves, and this entry has the target
that the pointer had in the callee.  The caller's own target is lost.

To see what a call does to one pointer it must be known that nothing else is
taken for it.  `Pinned` says that no other name, no part and no element leads to
its variable.
-/

namespace Footprint

open Memory

namespace Memory

/-- The variable of a pointer has its target, and only the name of the pointer leads to it. -/
structure Pinned (p : String) (id : VarId) (target : Option Int) (m : Memory) : Prop where
  next : m.next = m.blocks.size
  named : ∃ a b, 0 < a ∧ m.address? p = some a ∧ m.block? a = some b ∧ b.var = id
  lt : id < m.vars.size
  pointer : (m.varOf id).isPointer = true
  target : (m.varOf id).target = target
  names : ∀ n a b, m.address? n = some a → m.block? a = some b → b.var = id → n = p
  parts : ∀ j s a b, (m.varOf j).parts.get? s = some a → m.block? a = some b → b.var ≠ id

section Pinned

variable {p : String} {id : VarId} {target : Option Int} {m : Memory}

theorem ne_of_bracket (hp : ']' ∉ p.toList) (start : String) : start ++ "]" ≠ p := by
  rintro rfl
  exact hp (by simp [String.toList_append])

/-- The name of a variable leads to no part. -/
theorem ne_of_suffix (hdot : '.' ∉ p.toList) (hp : ']' ∉ p.toList) (name : String) (s : Slot) :
    name ++ s.suffix ≠ p := by
  cases s with
  | member m =>
    rintro rfl
    exact hdot (by simp [Slot.suffix, String.toList_append])
  | element i =>
    obtain ⟨start, hstart⟩ := Slot.IsElement.suffix (s := .element i) trivial name
    exact hstart ▸ ne_of_bracket hp start
  | anyElement =>
    obtain ⟨start, hstart⟩ := Slot.IsElement.suffix (s := .anyElement) trivial name
    exact hstart ▸ ne_of_bracket hp start

/-- A pointer that is no part of anything: its name has no member and no index in it. -/
structure PointerNamed (m : Memory) (p : String) : Prop where
  nonempty : p ≠ ""
  dot : '.' ∉ p.toList
  bracket : ']' ∉ p.toList
  pointer : ∃ a b, m.address? p = some a ∧ m.block? a = some b ∧ (m.varOf b.var).isPointer = true

/-- In a linked memory the variable of a pointer is pinned by its name. -/
theorem Linked.exists_pinned (h : Linked none m) (hp : m.PointerNamed p) :
    ∃ id target, Pinned p id target m := by
  obtain ⟨a, b, ha, hb, hpointer⟩ := hp.pointer
  have hname : (m.varOf b.var).name = p := by
    have hname := h.name p a ha
    rw [nameAt?, hb] at hname
    exact Option.some.inj hname
  have hlt := h.lt_next_of_block hb
  obtain ⟨b', hb', hplaced⟩ := h.block a hlt.1 hlt.2
  cases hb.symm.trans hb'
  refine ⟨b.var, (m.varOf b.var).target,
    { next := h.next, named := ⟨a, b, hlt.1, ha, hb, rfl⟩, lt := hplaced.var, pointer := hpointer
      target := rfl, names := fun n c b' hn hb' hv => ?_, parts := fun j s c b' hs hb' hv => ?_ }⟩
  · have hn := h.name n c hn
    rw [nameAt?, hb', Option.map_some, hv, hname] at hn
    exact (Option.some.inj hn).symm
  · rcases h.part j s c hs with hn | ⟨ho, _⟩
    · rw [nameAt?, hb', Option.map_some, hv, hname] at hn
      exact ne_of_suffix hp.dot hp.bracket _ s (Option.some.inj hn).symm
    · cases ho

variable {g : Variable → Variable}

/-- A change of a variable after which no part leads to the pinned one, which stays a pointer. -/
theorem Pinned.setVar (h : Pinned p id target m) {j : VarId} {target' : Option Int}
    (hparts : ∀ s a b, (g (m.varOf j)).parts.get? s = some a → m.block? a = some b → b.var ≠ id)
    (hpointer : j = id → (g (m.varOf id)).isPointer = true)
    (htarget : (if j = id then (g (m.varOf id)).target else target) = target') :
    Pinned p id target' (m.setVar j g) := by
  have hvar : (m.setVar j g).varOf id = if j = id then g (m.varOf id) else m.varOf id := by
    rw [varOf_setVar]
    simp only [h.lt, and_true]
  refine
    { next := h.next, named := h.named, lt := by simpa [Memory.setVar] using h.lt
      pointer := ?_, target := ?_, names := h.names, parts := fun i s a b hs hb => ?_ }
  · rw [hvar]
    split
    · next hj => exact hpointer hj
    · exact h.pointer
  · rw [hvar, ← htarget]
    split
    · rfl
    · exact h.target
  · rw [varOf_setVar] at hs
    split at hs
    · next hi =>
      obtain ⟨rfl, _⟩ := hi
      exact hparts s a b hs hb
    · exact h.parts i s a b hs hb

/-- Marks are no matter. -/
theorem Pinned.setVar_same (h : Pinned p id target m) (j : VarId)
    (hg : ∀ v, (g v).parts = v.parts ∧ (g v).isPointer = v.isPointer ∧ (g v).target = v.target) :
    Pinned p id target (m.setVar j g) := by
  refine h.setVar (fun s a b hs => ?_) (fun _ => ?_) ?_
  · rw [(hg _).1] at hs
    exact h.parts j s a b hs
  · rw [(hg _).2.1]
    exact h.pointer
  · rw [(hg _).2.2, h.target, ite_self]

theorem markRead_same (f : String) (v : Variable) : (v.markRead f).parts = v.parts ∧
    (v.markRead f).isPointer = v.isPointer ∧ (v.markRead f).target = v.target := by
  unfold Variable.markRead
  split
  · exact ⟨rfl, rfl, rfl⟩
  · exact ⟨rfl, rfl, rfl⟩

theorem markWrite_same (f : String) (v : Variable) : (v.markWrite f).parts = v.parts ∧
    (v.markWrite f).isPointer = v.isPointer ∧ (v.markWrite f).target = v.target := by
  unfold Variable.markWrite
  split
  · exact ⟨rfl, rfl, rfl⟩
  · exact ⟨rfl, rfl, rfl⟩

theorem Pinned.ne_of_leadsTo (h : Pinned p id target m) (hp : ']' ∉ p.toList) {a : Nat}
    (ha : m.LeadsTo a) {b : Block} (hb : m.block? a = some b) : b.var ≠ id := by
  rcases ha with ⟨j, s, hs⟩ | ⟨start, hn⟩
  · exact h.parts j s a b hs hb
  · exact fun hv => ne_of_bracket hp start (h.names _ a b hn hb hv)

theorem Pinned.setPart (h : Pinned p id target m) (hp : ']' ∉ p.toList) {j : VarId} {s : Slot}
    {a : Nat} (ha : a = m.next ∨ ∃ start, m.address? (start ++ "]") = some a) :
    Pinned p id target (m.setVar j fun v => { v with parts := v.parts.set s a }) := by
  refine h.setVar (fun s' c b hs hb => ?_) (fun _ => h.pointer) (by simp [h.target])
  have hs : ((m.varOf j).parts.set s a).get? s' = some c := hs
  rw [Table.get?_set] at hs
  split at hs
  · cases hs
    rcases ha with rfl | hn
    · -- there is no block at the next address
      have hlt := (Array.getElem?_eq_some_iff.mp (block?_eq_some hb)).1
      rw [h.next] at hlt
      exact absurd hlt (Nat.lt_irrefl _)
    · exact h.ne_of_leadsTo hp (.inr hn) hb
  · exact h.parts j s' c b hs hb

theorem Pinned.withPart (h : Pinned p id target m) {name : String} (hn : name ≠ p) (parent : Nat)
    {v : Variable} (hv : v.parts = {}) : Pinned p id target (m.withPart name parent v) := by
  have hvar : ∀ j, (m.withPart name parent v).varOf j = if j = m.vars.size then v else m.varOf j :=
    varOf_push m v
  have hne : id ≠ m.vars.size := Nat.ne_of_lt h.lt
  have hself : (m.withPart name parent v).varOf id = m.varOf id := by rw [hvar, if_neg hne]
  -- the new block belongs to the new variable
  have hblock : ∀ a b, (m.withPart name parent v).block? a = some b → b.var = id →
      m.block? a = some b := by
    intro a b hb hid
    cases block?_of_withBlock hb with
    | inl hb => exact hb
    | inr hnew => exact absurd (hid.symm.trans hnew.1) hne
  have haddress : ∀ n, (m.withPart name parent v).address? n =
      if name = n then some m.next else m.address? n :=
        fun n => Table.get?_set m.names name n m.next
  constructor
  · simp [Memory.withPart, Memory.withBlock, h.next]
  · obtain ⟨a, b, hpos, ha, hb, hid⟩ := h.named
    have hb : (m.withPart name parent v).block? a = some b :=
      block?_withBlock_of_some (m := { m with vars := m.vars.push v }) hb name parent m.vars.size
    exact ⟨a, b, hpos, by rw [haddress, if_neg hn]; exact ha, hb, hid⟩
  · exact Nat.lt_of_lt_of_le h.lt (by simp [Memory.withPart, Memory.withBlock])
  · rw [hself]
    exact h.pointer
  · rw [hself]
    exact h.target
  · intro n a b ha hb hid
    have hb := hblock a b hb hid
    rw [haddress] at ha
    split at ha
    · cases ha
      have hlt := (Array.getElem?_eq_some_iff.mp (block?_eq_some hb)).1
      rw [h.next] at hlt
      exact absurd hlt (Nat.lt_irrefl _)
    · exact h.names n a b ha hb hid
  · intro j s a b hs hb hid
    rw [hvar] at hs
    split at hs
    · rw [hv] at hs
      cases hs
    · exact h.parts j s a b hs (hblock a b hb hid) hid

theorem Pinned.sameBlocks {m' : Memory} (h : Pinned p id target m) (hs : SameBlocks m m') :
    Pinned p id target m' := by
  constructor
  · rw [hs.next, hs.size, h.next]
  · obtain ⟨a, b, hpos, ha, hb, hid⟩ := h.named
    obtain ⟨b', hb', _, _, hv⟩ := hs.block a b hb
    exact ⟨a, b', hpos, by rw [address?, hs.names]; exact ha, hb', hv.trans hid⟩
  · rw [hs.vars]
    exact h.lt
  · rw [hs.varOf]
    exact h.pointer
  · rw [hs.varOf]
    exact h.target
  · intro n a b' ha hb' hid
    obtain ⟨b, hb, hv, _⟩ := hs.exists_block hb'
    rw [address?, hs.names] at ha
    exact h.names n a b ha hb (hv.symm.trans hid)
  · intro j s a b' hp hb' hid
    obtain ⟨b, hb, hv, _⟩ := hs.exists_block hb'
    rw [hs.varOf] at hp
    exact h.parts j s a b hp hb (hv.symm.trans hid)

theorem Pinned.steady (hp : ']' ∉ p.toList) (f : String) (id : VarId) (target : Option Int) :
    Steady f (fun n => ']' ∈ n.toList) (Pinned p id target) where
  element _ _ := by simp [String.toList_append]
  member hn := by simp [String.toList_append, hn]
  part h ha := h.setPart hp ha
  block h hn hv := h.withPart (fun he => hp (he ▸ hn)) _ hv.parts
  pointers h hs := h.sameBlocks hs
  read h := h.setVar_same _ (markRead_same f)
  write h := h.setVar_same _ (markWrite_same f)

end Pinned

end Memory

namespace Walk

/-! ## Moving a pointer -/

/-- The variable of the pointer is pinned with a target, and the body has an entry for it. -/
abbrev Knows (p : String) (id : VarId) (target : Option Int) (entry : Option (Option Int))
    (signatures : Array Function) : Walk → Prop :=
  Within (Pinned p id target) (fun t => t.get? p = entry) signatures

section Knows

variable {s : Scope} {p : String} {id : VarId} {target : Option Int} {entry : Option (Option Int)}
variable {signatures : Array Function}

theorem knows_looks (hp : ']' ∉ p.toList) : Looks s (Knows p id target entry signatures) :=
  looks_of_steady (Pinned.steady hp s.name id target)

theorem knows_dropRef (hp : ']' ∉ p.toList) (key : String) (a : Option Int) :
    Keeps (Knows p id target entry signatures) (dropRef key a) := by
  cases a with
  | none => exact .pure _
  | some a => exact keeps_onMemory ((Pinned.steady hp "" id target).removeRef a key)

theorem knows_noteRef (hp : ']' ∉ p.toList) (key : String) (a : Option Int) :
    Keeps (Knows p id target entry signatures) (noteRef key a) := by
  cases a with
  | none => exact .pure _
  | some a => exact keeps_onMemory ((Pinned.steady hp "" id target).addRef a key)

/-- The address of another key is not that of the pointer. -/
theorem addressOf_ne (hp : ']' ∉ p.toList) {key : String} (hkey : key ≠ p) {w : Walk}
    (hw : Knows p id target entry signatures w) :
    Ends (addressOf s key) w
      (fun found w' => Knows p id target entry signatures w' ∧
        ∀ a b, found = some a → w'.memory.block? a = some b → b.var ≠ id)
      fun _ => Knows p id target entry signatures := by
  have hresolve := (Pinned.steady hp s.name id target).resolve_ends s.types key hw.memory
  refine Ends.zoom (hresolve.mono ?_ fun _ m hm => ⟨hm, hw.pointers, hw.functions⟩)
  rintro found m ⟨hm, hfound⟩
  refine ⟨⟨hm, hw.pointers, hw.functions⟩, fun a b ha hb => ?_⟩
  rcases hfound a ha with hn | hleads
  · exact fun hid => hkey (hm.names key a b hn hb hid)
  · exact hm.ne_of_leadsTo hp hleads hb

/-- The variable of another key is another one. -/
theorem variableOf_ne (hp : ']' ∉ p.toList) {key : String} (hkey : key ≠ p) {w : Walk}
    (hw : Knows p id target entry signatures w) :
    Ends (variableOf s key) w
      (fun known w' => Knows p id target entry signatures w' ∧
        ∀ j v, known = some (j, v) → j ≠ id)
      fun _ => Knows p id target entry signatures := by
  refine Ends.bind ((addressOf_ne hp hkey hw).mono ?_ fun _ _ h => h)
  rintro (_ | a) w₁ ⟨hw₁, hne⟩
  · exact Ends.pure ⟨hw₁, fun _ _ hj => nomatch hj⟩
  · refine Ends.zoom ?_
    rcases variableAt_cases a w₁.memory with ⟨e, _, he⟩ | hv
    · exact Ends.of_error he hw₁
    · refine Ends.of_ok hv ⟨hw₁, fun j v hj => ?_⟩
      obtain ⟨b, hb, he⟩ := Option.map_eq_some_iff.mp hj
      cases he
      exact hne a b rfl hb

/-- Moving another pointer leaves this one alone. -/
theorem knows_repoint_ne (hp : ']' ∉ p.toList) {key : String} (hkey : key ≠ p)
    (t : Option Int) : Keeps (Knows p id target entry signatures) (repoint s key t) := by
  refine .bind (keeps_currentTarget key) fun current => ⟨fun w hw => Ends.bind ?_⟩
  refine (variableOf_ne hp hkey hw).mono ?_ fun _ _ h => h
  rintro known w₁ ⟨hw₁, hne⟩
  refine (knows_dropRef hp key _).ends_bind hw₁ fun _ w₂ hw₂ => ?_
  have hset : Keeps (Knows p id target entry signatures) (setTarget key t) :=
    .modify fun w hw => ⟨hw.memory, by rw [Table.get?_set, if_neg hkey]; exact hw.pointers,
      hw.functions⟩
  have hremember : Keeps (Knows p id target entry signatures) (remember t known) := by
    cases known with
    | none => exact .pure _
    | some known =>
      obtain ⟨j, v⟩ := known
      unfold remember
      dsimp only
      split
      · refine keeps_onMemory (keeps_change fun m hm => ?_)
        have hj : j ≠ id := hne j v rfl
        exact hm.setVar (fun s a b => hm.parts j s a b) (fun he => absurd he hj) (if_neg hj)
      · exact .pure _
  exact (Keeps.bind hset fun _ => .bind hremember fun _ => knows_noteRef hp key t).ends _ hw₂

theorem variableOf_self (hne : p ≠ "") {w : Walk} (hw : Knows p id target entry signatures w) :
    variableOf s p w = .ok (some (id, w.memory.varOf id)) w := by
  obtain ⟨a, b, hpos, ha, hb, rfl⟩ := hw.memory.named
  have haddress : addressOf s p w = .ok (some a) w :=
    onMemory_ok (resolve_known s.types hne ha)
  exact (bind_of_ok haddress).trans (onMemory_ok (variableAt_of_pos hpos hb))

/-- The target that the analysis takes a pointer to have: the one in this body, or else the one that
its variable remembers. -/
def heldTarget (target : Option Int) (entry : Option (Option Int)) : Option Int :=
  entry.join.or (target.filter fun a => 0 ≤ a)

theorem targetOf_knows (hne : p ≠ "") {w : Walk} (hw : Knows p id target entry signatures w) :
    targetOf s p w = .ok (heldTarget target entry) w := by
  have hempty : ¬ p.isEmpty = true := by simpa using hne
  have hremembered : rememberedTarget s p w = .ok (target.filter fun a => 0 ≤ a) w := by
    refine (bind_of_ok (variableOf_self hne hw)).trans ?_
    show EStateM.Result.ok
      (if (w.memory.varOf id).isPointer then (w.memory.varOf id).liveTarget else none) w = _
    rw [hw.memory.pointer, if_pos rfl, Variable.liveTarget, hw.memory.target]
  unfold targetOf heldTarget
  rw [if_neg hempty]
  refine (bind_of_ok rfl).trans ?_
  rw [hw.pointers]
  cases entry.join with
  | none => exact hremembered
  | some a => rfl

/-- Moving the pointer gives it the target, here and in its variable. -/
theorem repoint_self (hp : ']' ∉ p.toList) (hne : p ≠ "") {w : Walk}
    (hw : Knows p id target entry signatures w) (t : Option Int) :
    Ends (repoint s p t) w (fun _ => Knows p id t (some t) signatures) fun _ _ => True := by
  refine Ends.bind_ok rfl (Ends.bind_ok (variableOf_self hne hw) ?_)
  refine (knows_dropRef hp p _).ends_bind_value hw fun _ w₁ hw₁ => Ends.bind (Ends.modify ?_)
  have hset : Knows p id target (some t) signatures { w₁ with pointers := w₁.pointers.set p t } :=
    ⟨hw₁.memory, by rw [Table.get?_set, if_pos rfl], hw₁.functions⟩
  have hremember : Ends (remember t (some (id, w.memory.varOf id)))
      { w₁ with pointers := w₁.pointers.set p t } (fun _ => Knows p id t (some t) signatures)
      fun _ _ => True := by
    unfold remember
    dsimp only
    rw [hw.memory.pointer, if_pos rfl]
    refine Ends.zoom (Ends.modify ⟨?_, hset.pointers, hset.functions⟩)
    exact hset.memory.setVar (fun s a b => hset.memory.parts id s a b)
      (fun _ => hset.memory.pointer) (if_pos rfl)
  refine Ends.bind (hremember.mono (fun _ w₂ hw₂ => ?_) fun _ _ _ => trivial)
  exact ((knows_noteRef hp p t).ends w₂ hw₂).mono (fun _ _ h => h) fun _ _ _ => trivial

end Knows

/-! ## The entries of a callee -/

/-- The pointer of the caller that an entry of the callee is carried over to, and its target. -/
def carried (s : Scope) (callee : Function) (actuals : List Actual) (pointer : Nat)
    (target : Option Int) : WalkM (Option (String × Option Int)) := do
  let start := ownerStart callee.name.plain
  match ← variableAt pointer with
  | none => return none
  | some (_, v) =>
    if !v.isPointer then return none
    else do
      match (← pointerInCaller start actuals v.name).filter (!·.isEmpty) with
      | none => return none
      | some name => do
        let target ← targetInCaller s start actuals target
        return some ((← pointerKey s name).getD name, target)

/-- Moves the pointer that an entry is carried over to. -/
def move (s : Scope) : Option (String × Option Int) → WalkM Unit
  | some (key, target) => repoint s key target
  | none => return ()

theorem mergePointer_eq (s : Scope) (callee : Function) (actuals : List Actual) (pointer : Nat)
    (target : Option Int) :
    mergePointer s callee actuals pointer target =
      carried s callee actuals pointer target >>= move s := by
  unfold mergePointer carried
  simp only [bind_assoc]
  congr 1
  funext found
  cases found with
  | none => rfl
  | some found =>
    dsimp only
    split
    · rfl
    · simp only [bind_assoc]
      congr 1
      funext name
      cases name.filter (!·.isEmpty) with
      | none => rfl
      | some name =>
        simp only [bind_assoc, pure_bind]
        rfl

/-- Carrying over some entries of the callee takes the caller from `w` to `w'` by the moves. -/
inductive Carries (s : Scope) (callee : Function) (actuals : List Actual) :
    List (Nat × Option Int) → Walk → List (String × Option Int) → Walk → Prop
  | nil {w : Walk} : Carries s callee actuals [] w [] w
  | skip {pointer : Nat} {target : Option Int} {rest : List (Nat × Option Int)} {w w₁ w' : Walk}
      {moves : List (String × Option Int)}
      (hskip : carried s callee actuals pointer target w = .ok none w₁)
      (hrest : Carries s callee actuals rest w₁ moves w') :
      Carries s callee actuals ((pointer, target) :: rest) w moves w'
  | move {pointer : Nat} {target : Option Int} {rest : List (Nat × Option Int)}
      {w w₁ w₂ w' : Walk} {moves : List (String × Option Int)} {key : String} {t : Option Int}
      (hcarried : carried s callee actuals pointer target w = .ok (some (key, t)) w₁)
      (hmove : repoint s key t w₁ = .ok ⟨⟩ w₂)
      (hrest : Carries s callee actuals rest w₂ moves w') :
      Carries s callee actuals ((pointer, target) :: rest) w ((key, t) :: moves) w'

/-- The target of the last move of a pointer. -/
def lastMove (p : String) : List (String × Option Int) → Option (Option Int)
  | [] => none
  | (key, t) :: rest => (lastMove p rest).or (if key = p then some t else none)

variable {s : Scope} {callee : Function} {actuals : List Actual}

theorem Finds.carried {I : Walk → Prop} (h : Finds s I) (callee : Function) (actuals : List Actual)
    (pointer : Nat) (target : Option Int) : Keeps I (carried s callee actuals pointer target) := by
  refine .bind (h.look _) fun v => ?_
  cases v with
  | none => exact .pure _
  | some v =>
    dsimp only
    split
    · exact .pure _
    · refine .bind (h.pointerInCaller _ _ _) fun name => ?_
      split
      · exact .pure _
      · exact .bind (h.targetInCaller _ _ _) fun _ => .bind (h.pointerKey _) fun _ => .pure _

/-- Entries that are carried over are carried over by some moves. -/
theorem exists_carries :
    ∀ (entries : List (Nat × Option Int)) {w w' : Walk},
      (entries.forM fun (pointer, target) => mergePointer s callee actuals pointer target) w =
        .ok ⟨⟩ w' →
      ∃ moves, Carries s callee actuals entries w moves w'
  | [], w, _, h => by
    cases h
    exact ⟨[], .nil⟩
  | (pointer, target) :: rest, w, w', h => by
    obtain ⟨_, w₂, hfirst, hrest⟩ := exists_of_bind h
    obtain ⟨moves, hmoves⟩ := exists_carries rest hrest
    have hfirst : (carried s callee actuals pointer target >>= move s) w = .ok ⟨⟩ w₂ := by
      rw [← mergePointer_eq]
      exact hfirst
    obtain ⟨found, w₁, hcarried, hmove⟩ := exists_of_bind hfirst
    cases found with
    | none =>
      cases hmove
      exact ⟨moves, .skip hcarried hmoves⟩
    | some found => exact ⟨found :: moves, .move hcarried hmove hmoves⟩

/-- After the moves the pointer has the target of its last one, or the target it had. -/
theorem Carries.knows {p : String}
    {id : VarId} {signatures : Array Function} (hp : ']' ∉ p.toList) (hne : p ≠ "")
    {entries : List (Nat × Option Int)} {w w' : Walk} {moves : List (String × Option Int)}
    (h : Carries s callee actuals entries w moves w') :
    ∀ {target : Option Int} {entry : Option (Option Int)}, Knows p id target entry signatures w →
      ∃ target' entry', Knows p id target' entry' signatures w' ∧
        heldTarget target' entry' = (lastMove p moves).getD (heldTarget target entry) := by
  induction h with
  | nil => exact fun hw => ⟨_, _, hw, rfl⟩
  | skip hskip _ ih =>
    intro target entry hw
    exact ih (((knows_looks hp).carried callee actuals _ _).ends _ hw |>.value _ _ hskip)
  | @move pointer target₀ rest w w₁ w₂ w' moves key t hcarried hmove _ ih =>
    intro target entry hw
    have hw₁ := (((knows_looks hp).carried callee actuals _ _).ends _ hw).value _ _ hcarried
    by_cases hkey : key = p
    · subst hkey
      obtain ⟨target', entry', hw', hheld⟩ := ih ((repoint_self hp hne hw₁ t).value _ _ hmove)
      refine ⟨target', entry', hw', hheld.trans ?_⟩
      have hself : heldTarget t (some t) = t := by
        cases t with
        | none => rfl
        | some a => rfl
      rw [hself, lastMove, if_pos rfl]
      cases lastMove key moves with
      | none => rfl
      | some t' => rfl
    · obtain ⟨target', entry', hw', hheld⟩ := ih
        (((knows_repoint_ne hp hkey t).ends _ hw₁).value _ _ hmove)
      refine ⟨target', entry', hw', hheld.trans ?_⟩
      rw [lastMove, if_neg hkey, Option.or_none]

/-! ## The call -/

/-- Merging the callee takes the caller from `w` to `w'`, and these are the pointers that it
moves. -/
def Merges (s : Scope) (callee : Function) (arguments : List Node) (w : Walk)
    (moves : List (String × Option Int)) (w' : Walk) : Prop :=
  ∃ actuals w₁ w₂ w₃, actualsOf s callee [] (callee.params.zip arguments) w = .ok actuals w₁ ∧
    callee.reads.toList.forM (mergeUse s callee actuals .read) w₁ = .ok ⟨⟩ w₂ ∧
    callee.writes.toList.forM (mergeUse s callee actuals .write) w₂ = .ok ⟨⟩ w₃ ∧
    Carries s callee actuals callee.pointerEnds.entries w₃ moves w'

/-- After a call a pointer points to where the last entry of the callee says that is carried over to
it, and without one to where it pointed before. -/
theorem targetOf_mergeCallee {s : Scope} {callee : Function} {arguments : List Node} {w w' : Walk}
    {p : String} (hm : Memory.Reached s.types w.memory) (hp : w.memory.PointerNamed p)
    (hcall : mergeCallee s callee arguments w = .ok ⟨⟩ w') :
    ∃ target moves, targetOf s p w = .ok target w ∧ Merges s callee arguments w moves w' ∧
      targetOf s p w' = .ok ((lastMove p moves).getD target) w' := by
  obtain ⟨id, target, hpinned⟩ := hm.linked.exists_pinned hp
  have hw : Knows p id target (w.pointers.get? p) (w.functions.map Function.signature) w :=
    ⟨hpinned, rfl, rfl⟩
  obtain ⟨actuals, w₁, hactuals, hrest⟩ := exists_of_bind hcall
  obtain ⟨_, w₂, hreads, hrest⟩ := exists_of_bind hrest
  obtain ⟨_, w₃, hwrites, hpointers⟩ := exists_of_bind hrest
  obtain ⟨moves, hmoves⟩ := exists_carries _ hpointers
  -- up to the pointers a call only looks and marks
  have hlooks : Looks s (Knows p id target (w.pointers.get? p)
      (w.functions.map Function.signature)) := knows_looks hp.bracket
  have hw₁ := ((hlooks.actualsOf callee [] _).ends w hw).value _ _ hactuals
  have hw₂ := ((Keeps.forM fun name _ => (hlooks.marks .read).mergeUse callee actuals name).ends w₁
    hw₁).value _ _ hreads
  have hw₃ := ((Keeps.forM fun name _ => (hlooks.marks .write).mergeUse callee actuals name).ends w₂
    hw₂).value _ _ hwrites
  obtain ⟨target', entry', hw', hheld⟩ := hmoves.knows hp.bracket hp.nonempty hw₃
  refine ⟨_, moves, targetOf_knows hp.nonempty hw,
    ⟨actuals, w₁, w₂, w₃, hactuals, hreads, hwrites, hmoves⟩, ?_⟩
  rw [← hheld]
  exact targetOf_knows hp.nonempty hw'

/-- A scalar `x` and a pointer `p`, declared. -/
def aimDeclared : Memory :=
  [{ name := "x", type := "int", kind := .builtin : Variable },
    { name := "p", type := "int *", kind := .pointer, isPointer := true }].foldl
    (fun m v => (Call.declare v).after {} m) {}

/-- A caller in which `p` points to `x`. -/
def aiming : Walk where
  memory := (Call.allocateGlobals [0, 1]).after {} aimDeclared
  functions := #[{ name := .text "f", source := "a.c" }]
  pointers := ⟨[("p", some 1)]⟩

theorem reached_aiming : Reached {} aiming.memory := by
  have hdeclared : Reached {} aimDeclared :=
    ((Reached.empty.after (.declare _) (show _ = _ from rfl) rfl).after (.declare _)
      (show _ = _ from rfl) rfl)
  have hfits : ∀ id ∈ [0, 1], id < aimDeclared.vars.size := by decide +kernel
  exact hdeclared.after (.allocateGlobals [0, 1]) hfits (by decide +kernel)

theorem pointerNamed_aiming : aiming.memory.PointerNamed "p" := by
  have hpointer : ((aiming.memory.address? "p").bind fun a =>
      (aiming.memory.block? a).map fun b => (aiming.memory.varOf b.var).isPointer) = some true := by
    decide +kernel
  obtain ⟨a, ha, hb⟩ := Option.bind_eq_some_iff.mp hpointer
  obtain ⟨b, hb, hp⟩ := Option.map_eq_some_iff.mp hb
  exact ⟨by decide, by decide, by decide, a, b, ha, hb, hp⟩

/-- A callee that leaves `p` pointing nowhere. -/
def dropping : Function :=
  { name := .text "g", source := "a.c", pointerEnds := ⟨[(2, none)]⟩ }

theorem targetOf_mergeCallee_aiming :
    ∃ w', Memory.Reached {} aiming.memory ∧ aiming.memory.PointerNamed "p" ∧
      mergeCallee ⟨{}, 0, "f"⟩ dropping [] aiming = .ok ⟨⟩ w' ∧
      ∃ target moves, targetOf ⟨{}, 0, "f"⟩ "p" aiming = .ok target aiming ∧
        Merges ⟨{}, 0, "f"⟩ dropping [] aiming moves w' ∧
        targetOf ⟨{}, 0, "f"⟩ "p" w' = .ok ((lastMove "p" moves).getD target) w' := by
  have hends : (value? (mergeCallee ⟨{}, 0, "f"⟩ dropping [] aiming)) = some ⟨⟩ := by decide +kernel
  obtain ⟨w', hcall⟩ := exists_of_value? hends
  exact ⟨w', reached_aiming, pointerNamed_aiming, hcall,
    targetOf_mergeCallee reached_aiming pointerNamed_aiming hcall⟩

/-! ## A callee without statements -/

/-- The tree of `p = &x`. -/
def aim : Node := between "=" (named "p") addressOfX

/-- The tree of `g()`. -/
def idle : Node := .mk { kind := .call, spelling := "g" } [] none

/-- A file with a scalar `x`, a pointer `p`, a function `g` without statements, and a function `f`
that makes `p` point to `x` and then calls `g`. -/
def idleCall : Files := fileOf
  [intVar "x", intPointer "p", Project.definitionOf "g" [], definedAs "f" [aim, idle]]

/-- The caller before and after the call, and what is known when it is analysed. -/
def idleRun? : Option (Project × Walk × Walk) :=
  (after? (Project.prepare idleCall (idleCall.absolute "p") {})).bind fun p₀ =>
    (after? (Project.analyse 0 p₀)).bind fun p =>
      (after? (walk p.analysis.index ⟨p.types, 1, "f"⟩ aim (entering p.analysis))).bind fun w =>
        (after? (walk p.analysis.index ⟨p.types, 1, "f"⟩ idle w)).map fun w' => (p, w, w')

/-- A call of a function without statements makes the caller forget where a pointer points. -/
theorem targetOf_idle_lost :
    ∃ p₀ p w w', Project.prepare idleCall (idleCall.absolute "p") {} = .ok ⟨⟩ p₀ ∧
      Project.analyse 0 p₀ = .ok ⟨⟩ p ∧
      (p.record? 0).map Function.name = some (.text "g") ∧
      walk p.analysis.index ⟨p.types, 1, "f"⟩ aim (entering p.analysis) = .ok ⟨⟩ w ∧
      value? (targetOf ⟨p.types, 1, "f"⟩ "p" w) = some (some 1) ∧
      walk p.analysis.index ⟨p.types, 1, "f"⟩ idle w = .ok ⟨⟩ w' ∧
      value? (targetOf ⟨p.types, 1, "f"⟩ "p" w') = some none := by
  have hrun : (idleRun?.map fun (p, w, w') => ((p.record? 0).map Function.name,
      value? (targetOf ⟨p.types, 1, "f"⟩ "p" w), value? (targetOf ⟨p.types, 1, "f"⟩ "p" w'))) =
      some (some (.text "g"), some (some 1), some none) := by decide +kernel
  obtain ⟨⟨p, w, w'⟩, hr, hvalues⟩ := Option.map_eq_some_iff.mp hrun
  simp only [Prod.mk.injEq] at hvalues
  obtain ⟨hname, hbefore, hafter⟩ := hvalues
  obtain ⟨p₀, hprepare, hr⟩ := ok_of_bind hr
  obtain ⟨_, hanalyse, hr⟩ := ok_of_bind hr
  obtain ⟨_, haim, hr⟩ := ok_of_bind hr
  obtain ⟨_, hidle, hr⟩ := ok_of_map hr
  cases hr
  exact ⟨p₀, p, w, w', hprepare, hanalyse, hname, haim,
    hbefore, hidle, hafter⟩

end Walk

end Footprint
