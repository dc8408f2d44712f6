import Footprint.Proofs.Addresses.Names
import Footprint.Proofs.Call.Arguments
import Footprint.Proofs.Memory.Noting

/-!
# Calls compose

A call of a function that takes its parameters by value adds the uses of the
callee to those of the caller, as if they stood at the place of the call: the
reads that the caller has not written before, and all writes.

The uses are carried over one name at a time.  What becomes of a name is its
`Fate`.  It depends on the names and blocks of the memory, which no use changes,
and for a read on what is written, which no read changes.  So a use is carried
over by a closed expression (`carry`), a loop over names is a fold of it, and
uses of one kind may be carried over in any order.
-/

namespace Footprint

open Memory

namespace NameSet

theorem union_right_comm (s t u : NameSet) : (s.union t).union u = (s.union u).union t := by
  simp only [union, ← List.foldl_append]
  exact List.perm_append_comm.foldl_eq' (fun x _ y _ s => insert_comm s x y) s

end NameSet

/-! ## Records -/

/-- The function with names added to those it shares and to those it uses. -/
def Function.gain (use : Walk.Use) (shared names : NameSet) (f : Function) : Function :=
  match use with
  | .read => { f with shared := f.shared.union shared, reads := f.reads.union names }
  | .write => { f with shared := f.shared.union shared, writes := f.writes.union names }

theorem Function.gain_comm (use : Walk.Use) (s n s' n' : NameSet) (f : Function) :
    (f.gain use s n).gain use s' n' = (f.gain use s' n').gain use s n := by
  have hshared := f.shared.union_right_comm s s'
  cases use with
  | read => simp only [gain, hshared, f.reads.union_right_comm n n']
  | write => simp only [gain, hshared, f.writes.union_right_comm n n']

theorem Function.gain_empty (use : Walk.Use) (f : Function) : f.gain use {} {} = f := by
  cases use with
  | read => rfl
  | write => rfl

theorem Function.note_shared (use : Walk.Use) (s : NameSet) (n : String) (f : Function) :
    { f with shared := f.shared.union s }.note use n = f.gain use s ⟨[n]⟩ := by
  cases use with
  | read => rfl
  | write => rfl

theorem Function.mem_names_gain {use other : Walk.Use} {s n : NameSet} {f : Function} {x : String} :
    x ∈ (f.gain use s n).names other ↔ x ∈ f.names other ∨ (other = use ∧ x ∈ n) := by
  cases use <;> cases other <;> simp [gain, names, NameSet.mem_union]

/-- No parameter of the function is a pointer or used as an array. -/
def Function.ByValue (f : Function) (m : Memory) : Prop :=
  ∀ param ∈ f.params, ∀ id ∈ f.vars.get? (ownedName f.name.plain param.plain),
    ((m.varOf id).isPointer || (m.varOf id).usedAsArray) = false

instance (f : Function) (m : Memory) : Decidable (f.ByValue m) :=
  inferInstanceAs (Decidable (∀ _ ∈ _, ∀ _ ∈ _, _))

theorem modify_modify {α : Type} (xs : Array α) (i : Nat) (f g : α → α) :
    (xs.modify i f).modify i g = xs.modify i fun x => g (f x) := by
  refine Array.ext_getElem? fun j => ?_
  simp only [Array.getElem?_modify]
  split
  · rw [Option.map_map]
    rfl
  · rfl

namespace Memory

/-- The block at the address is a pointer. -/
def isPointerAt (m : Memory) (a : Nat) : Bool :=
  (m.block? a).any fun b => (m.varOf b.var).isPointer

/-- The name is found at the address, and the block there is no pointer. -/
def NamesPlain (T : TypeTable) (m : Memory) (n : String) (a : Nat) : Prop :=
  ∃ m', resolve T n m = .ok (some a) m' ∧ m'.isPointerAt a = false

end Memory

namespace Walk

/-! ## The use of one name -/

/-- What becomes of a use that a call carries over. -/
inductive Fate where
  /-- The name has no address. -/
  | lost
  /-- The name is shared with the callee, and the use is not noted. -/
  | shared
  /-- The use is noted at the block at an address. -/
  | noted (a : Nat)

/-- The names that are shared along with a name: its root, and the root as an own name. -/
def sharedWith (s : Scope) (name : String) : NameSet :=
  if (rootOf name).isEmpty then ⟨[name]⟩
  else ⟨[name, rootOf name, ownedName s.name (rootOf name)]⟩

/-- The fate of the use of a name. -/
def fate (w : Walk) (use : Use) (name : String) : Fate :=
  match w.memory.address? name with
  | none => .lost
  | some a =>
    if name.isEmpty then .lost
    else if w.memory.isPointerAt a || (decide (use = .read) && w.written.contains name) then .shared
    else .noted a

namespace Fate

/-- The names that come to be shared. -/
def shares (s : Scope) (name : String) : Fate → NameSet
  | lost => {}
  | shared | noted _ => sharedWith s name

/-- The names of which a use is noted. -/
def names (name : String) : Fate → NameSet
  | lost | shared => {}
  | noted _ => ⟨[name]⟩

/-- The memory after the use. -/
def memory (use : Use) (f : String) (m : Memory) : Fate → Memory
  | lost | shared => m
  | noted a => m.withUse use f a

/-- What is noted as written after the use. -/
def written (use : Use) (name : String) (ns : NameSet) (fate : Fate) : NameSet :=
  match use with
  | .read => ns
  | .write => ns.union (fate.names name)

/-- The caller after the use. -/
def apply (s : Scope) (use : Use) (name : String) (w : Walk) (fate : Fate) : Walk :=
  { w with
    memory := fate.memory use s.name w.memory
    functions := w.functions.modify s.root (·.gain use (fate.shares s name) (fate.names name))
    written := fate.written use name w.written }

section Apply

variable {s : Scope} {use : Use} {w : Walk}

theorem memory_comm (use : Use) (f : String) (m : Memory) (x y : Fate) :
    y.memory use f (x.memory use f m) = x.memory use f (y.memory use f m) := by
  cases x with
  | lost | shared => rfl
  | noted a =>
    cases y with
    | lost | shared => rfl
    | noted c => exact m.withUse_comm use f a c

theorem apply_comm (x y : Fate) (n n' : String) :
    y.apply s use n' (x.apply s use n w) = x.apply s use n (y.apply s use n' w) := by
  have hmemory := memory_comm use s.name w.memory x y
  have hwritten : y.written use n' (x.written use n w.written) =
      x.written use n (y.written use n' w.written) := by
    cases use with
    | read => rfl
    | write => exact w.written.union_right_comm _ _
  unfold apply
  simp only [modify_modify, hmemory, hwritten, Function.gain_comm use (x.shares s n)]

theorem address?_apply (x : Fate) (name n : String) :
    (x.apply s use name w).memory.address? n = w.memory.address? n := by
  cases x with
  | lost | shared => rfl
  | noted a => exact address?_withUse ..

theorem isPointerAt_apply (x : Fate) (name : String) (a : Nat) :
    (x.apply s use name w).memory.isPointerAt a = w.memory.isPointerAt a := by
  cases x with
  | lost | shared => rfl
  | noted c =>
    show (w.memory.withUse use s.name c).isPointerAt a = _
    simp only [isPointerAt, block?_withUse]
    exact congrArg (Option.any · _) (funext fun b =>
      varOf_withUse (fun _ => rfl) w.memory use s.name c b.var)

theorem linked_apply (h : Linked none w.memory) (x : Fate) (name : String) :
    Linked none (x.apply s use name w).memory := by
  cases x with
  | lost | shared => exact h
  | noted a => exact h.withUse use s.name a

variable {other : Use} {x : Fate} {name n : String}

/-- A use changes the fate of no use of its kind, and a read that of no use. -/
theorem fate_apply (h : use = .read ∨ other = .write) (x : Fate) (name n : String) :
    fate (x.apply s use name w) other n = fate w other n := by
  have hwritten : (decide (other = .read) && (x.apply s use name w).written.contains n) =
      (decide (other = .read) && w.written.contains n) := by
    rcases h with rfl | rfl
    · rfl
    · rfl
  unfold fate
  simp only [address?_apply, isPointerAt_apply, hwritten]

theorem mem_names : n ∈ x.names name ↔ n = name ∧ ∃ a, x = .noted a := by
  cases x with
  | lost | shared =>
    refine iff_of_false (fun h => by cases h) ?_
    rintro ⟨_, _, h⟩
    cases h
  | noted a => exact List.mem_singleton.trans (iff_self_and.mpr fun _ => ⟨a, rfl⟩)

theorem mem_noted_apply (hroot : s.root < w.functions.size) :
    n ∈ Walk.noted s other (x.apply s use name w) ↔ n ∈ Walk.noted s other w ∨
    (other = use ∧ n ∈ x.names name) := by
  have hf : w.functions[s.root]? = some w.functions[s.root] := Array.getElem?_eq_getElem hroot
  unfold Walk.noted apply
  dsimp only
  rw [Array.getElem?_modify, if_pos rfl, hf]
  exact Function.mem_names_gain

theorem mem_written_apply : n ∈ (x.apply s use name w).written ↔ n ∈ w.written ∨
    (use = .write ∧ n ∈ x.names name) := by
  cases use with
  | read =>
    show n ∈ w.written ↔ _
    simp
  | write =>
    refine NameSet.mem_union.trans ?_
    simp

end Apply

end Fate

/-- The caller after a use is carried over. -/
def carry (s : Scope) (use : Use) (w : Walk) (name : String) : Walk :=
  (fate w use name).apply s use name w

section Carry

variable {s : Scope} {use : Use} {w : Walk} {n : String} {a : Nat}

/-- The fate of a use that is noted. -/
theorem fate_eq_noted : fate w use n = .noted a ↔
    n ≠ "" ∧ w.memory.address? n = some a ∧ w.memory.isPointerAt a = false ∧
      (use = .read → n ∉ w.written) := by
  have hcontains : w.written.contains n = true ↔ n ∈ w.written := List.contains_iff_mem
  unfold fate
  cases w.memory.address? n with
  | none => simp
  | some c =>
    dsimp only
    split
    · next hempty => simp_all
    · next hne =>
      have hne : n ≠ "" := by simpa using hne
      split
      · next hshared =>
        rw [Bool.or_eq_true, Bool.and_eq_true, hcontains] at hshared
        refine iff_of_false (by simp) ?_
        rintro ⟨_, hc, hpointer, hread⟩
        cases hc
        rcases hshared with h | ⟨h, hmem⟩
        · rw [hpointer] at h
          cases h
        · exact hread (of_decide_eq_true h) hmem
      · next hnoted =>
        rw [Bool.or_eq_true, Bool.and_eq_true, hcontains, not_or, Bool.not_eq_true] at hnoted
        simp only [Fate.noted.injEq, Option.some.injEq]
        refine ⟨?_, fun h => h.2.1⟩
        rintro rfl
        exact ⟨hne, rfl, hnoted.1, fun hr hmem => hnoted.2 ⟨decide_eq_true hr, hmem⟩⟩

/-- The caller with a name shared. -/
def withShared (s : Scope) (w : Walk) (n : String) : Walk :=
  { w with functions := w.functions.modify s.root fun f =>
      { f with shared := f.shared.union (sharedWith s n) } }

theorem share_eq (s : Scope) (hne : n ≠ "") (w : Walk) :
    share s n w = .ok ⟨⟩ (withShared s w n) := by
  have hempty : ¬ n.isEmpty = true := by simpa using hne
  have hshared : ∀ shared : NameSet, (if (rootOf n).isEmpty then shared.insert n
      else ((shared.insert n).insert (rootOf n)).insert (ownedName s.name (rootOf n))) =
        shared.union (sharedWith s n) := by
    intro shared
    unfold sharedWith
    split <;> rfl
  unfold share withShared
  rw [if_neg hempty]
  simp only [hshared]
  rfl

theorem mark_eq (hl : Linked none w.memory) {b : Block}
    (hb : w.memory.block? a = some b) (hname : (w.memory.varOf b.var).name = n)
    (hpointer : (w.memory.varOf b.var).isPointer = false) (hread : use = .read → n ∉ w.written) :
    mark s use a w = .ok ⟨⟩
      { w with
        memory := w.memory.withUse use s.name a
        functions := w.functions.modify s.root (·.note use n)
        written := (Fate.noted a).written use n w.written } := by
  refine (bind_of_ok (onMemory_ok (variableAt_ok hl hb))).trans ?_
  dsimp only
  rw [hpointer, hname]
  cases use with
  | read =>
    refine (bind_of_ok rfl).trans ?_
    have hnot : ¬ w.written.contains n = true := fun h => hread rfl (List.contains_iff_mem.mp h)
    rw [if_neg hnot]
    exact (bind_of_ok (onMemory_ok (read_eq hl hb s.name))).trans rfl
  | write => exact (bind_of_ok (onMemory_ok (write_eq hl hb s.name))).trans rfl

theorem mark_shared (hl : Linked none w.memory) {b : Block}
    (hb : w.memory.block? a = some b) (hname : (w.memory.varOf b.var).name = n)
    (h : (w.memory.varOf b.var).isPointer = true ∨ (use = .read ∧ n ∈ w.written)) :
    mark s use a w = .ok ⟨⟩ w := by
  refine (bind_of_ok (onMemory_ok (variableAt_ok hl hb))).trans ?_
  dsimp only
  split
  · rfl
  · next hpointer =>
    obtain ⟨rfl, hmem⟩ := h.resolve_left hpointer
    have hcontains : w.written.contains n = true := List.contains_iff_mem.mpr hmem
    refine (bind_of_ok rfl).trans ?_
    rw [hname, if_pos hcontains]
    rfl

/-- A use of a global name that has an address is carried over as its fate says. -/
theorem mergeGlobal_eq (hl : Linked none w.memory) (hn : (w.memory.address? n).isSome) :
    mergeGlobal s use n w = .ok ⟨⟩ (carry s use w n) := by
  obtain ⟨a, ha⟩ := Option.isSome_iff_exists.mp hn
  by_cases hne : n = ""
  · subst hne
    have hfate : fate w use "" = .lost := by
      unfold fate
      rw [ha]
      rfl
    have hcarry : carry s use w "" = w := by
      rw [carry, hfate]
      show { w with
        functions := w.functions.modify s.root fun f => f.gain use {} {}
        written := Fate.lost.written use "" w.written } = w
      rw [modify_eq_self fun f _ => Function.gain_empty use f]
      cases use with
      | read => rfl
      | write => rfl
    rw [hcarry]
    rfl
  · obtain ⟨b, hb, hname⟩ := Option.map_eq_some_iff.mp (hl.name n a ha)
    have haddress : addressOf s n w = .ok (some a) w :=
      onMemory_ok (resolve_known s.types hne ha)
    have hat : w.memory.isPointerAt a = (w.memory.varOf b.var).isPointer := by
      rw [isPointerAt, hb]
      rfl
    refine (bind_of_ok haddress).trans ((bind_of_ok (share_eq s hne w)).trans ?_)
    rw [carry]
    cases hf : fate w use n with
    | lost =>
      unfold fate at hf
      rw [ha] at hf
      dsimp only at hf
      rw [if_neg (by simpa using hne)] at hf
      split at hf <;> cases hf
    | shared =>
      have hshared : (w.memory.varOf b.var).isPointer = true ∨ (use = .read ∧ n ∈ w.written) := by
        by_contra hnot
        rw [not_or, Bool.not_eq_true] at hnot
        have hnoted := fate_eq_noted.mpr
          ⟨hne, ha, hat.trans hnot.1, fun hr hmem => hnot.2 ⟨hr, hmem⟩⟩
        rw [hf] at hnoted
        cases hnoted
      refine (mark_shared (w := withShared s w n) hl hb hname hshared).trans ?_
      cases use with
      | read => rfl
      | write => rfl
    | noted c =>
      obtain ⟨_, hc, hpointer, hread⟩ := fate_eq_noted.mp hf
      cases ha.symm.trans hc
      refine (mark_eq (w := withShared s w n) hl hb hname
        (hat.symm.trans hpointer) hread).trans ?_
      unfold Fate.apply withShared
      simp only [modify_modify, Function.note_shared]
      rfl

end Carry

/-! ## The uses of the callee -/

/-- The caller after a use of the callee is carried over, if nothing is passed by reference. -/
def carryOver (s : Scope) (callee : Function) (use : Use) (w : Walk) (name : String) : Walk :=
  if Text.starts (ownerStart callee.name.plain) name then w else carry s use w name

section Uses

variable {s : Scope} {callee : Function} {use : Use} {w : Walk} {n : String}

/-- What belongs to a callee to which nothing is passed by reference is not carried over. -/
theorem mergeUse_own (h : Text.starts (ownerStart callee.name.plain) n = true) :
    mergeUse s callee [] use n = pure ⟨⟩ := by
  unfold mergeUse
  dsimp only
  rw [if_pos h]
  split
  · rfl
  · split <;> rfl

theorem mergeUse_global {actuals : List Actual}
    (h : ¬ Text.starts (ownerStart callee.name.plain) n = true) :
    mergeUse s callee actuals use n = mergeGlobal s use n := by
  unfold mergeUse
  dsimp only
  rw [if_neg h]

theorem linked_carryOver (hl : Linked none w.memory) (name : String) :
    Linked none (carryOver s callee use w name).memory := by
  unfold carryOver
  split
  · exact hl
  · exact Fate.linked_apply hl _ name

theorem address?_carryOver (name n : String) :
    (carryOver s callee use w name).memory.address? n = w.memory.address? n := by
  unfold carryOver
  split
  · rfl
  · exact Fate.address?_apply ..

variable {other : Use} {x : String}

theorem fate_carryOver (h : use = .read ∨ other = .write) (name n : String) :
    fate (carryOver s callee use w name) other n = fate w other n := by
  unfold carryOver
  split
  · rfl
  · exact Fate.fate_apply h ..

theorem size_carryOver (name : String) :
    (carryOver s callee use w name).functions.size = w.functions.size := by
  unfold carryOver
  split
  · rfl
  · exact Array.size_modify ..

/-- Uses of one kind may be carried over in any order. -/
theorem carryOver_comm (n n' : String) :
    carryOver s callee use (carryOver s callee use w n) n' =
      carryOver s callee use (carryOver s callee use w n') n := by
  have hfate : ∀ name x, fate (carryOver s callee use w name) use x = fate w use x :=
    fate_carryOver (by cases use <;> simp)
  by_cases hn : Text.starts (ownerStart callee.name.plain) n = true
  · have hskip : ∀ w, carryOver s callee use w n = w := fun _ => if_pos hn
    rw [hskip, hskip]
  · by_cases hn' : Text.starts (ownerStart callee.name.plain) n' = true
    · have hskip : ∀ w, carryOver s callee use w n' = w := fun _ => if_pos hn'
      rw [hskip, hskip]
    · have hcarry : ∀ {n}, ¬ Text.starts (ownerStart callee.name.plain) n = true → ∀ w,
          carryOver s callee use w n = (fate w use n).apply s use n w := fun h _ => if_neg h
      rw [hcarry hn' (carryOver s callee use w n), hcarry hn (carryOver s callee use w n'),
        hfate, hfate, hcarry hn, hcarry hn']
      exact Fate.apply_comm ..

/-- The loop over the uses of one kind. -/
theorem mergeUses_eq : ∀ (names : List String) {w : Walk}, Linked none w.memory →
    (∀ n ∈ names, Text.starts (ownerStart callee.name.plain) n = true ∨
      (w.memory.address? n).isSome) →
    names.forM (mergeUse s callee [] use) w = .ok ⟨⟩ (names.foldl (carryOver s callee use) w)
  | [], _, _, _ => rfl
  | n :: names, w, hl, hnames => by
    have hstep : mergeUse s callee [] use n w = .ok ⟨⟩ (carryOver s callee use w n) := by
      by_cases hown : Text.starts (ownerStart callee.name.plain) n = true
      · rw [mergeUse_own hown, carryOver, if_pos hown]
        rfl
      · rw [mergeUse_global hown, carryOver, if_neg hown]
        exact mergeGlobal_eq hl ((hnames n (List.mem_cons_self ..)).resolve_left hown)
    refine (bind_of_ok hstep).trans (mergeUses_eq names (linked_carryOver hl n) fun x hx => ?_)
    rw [address?_carryOver]
    exact hnames x (List.mem_cons_of_mem n hx)

/-- A use of the name by the callee is noted in the caller. -/
def Surfaces (callee : Function) (w : Walk) (use : Use) (n : String) : Prop :=
  ¬ Text.starts (ownerStart callee.name.plain) n = true ∧ ∃ a, fate w use n = .noted a

theorem surfaces_carryOver (h : use = .read ∨ other = .write) {name n : String} :
    Surfaces callee (carryOver s callee use w name) other n ↔ Surfaces callee w other n := by
  rw [Surfaces, Surfaces, fate_carryOver h]

theorem mem_noted_carryOver (hroot : s.root < w.functions.size) :
    x ∈ noted s other (carryOver s callee use w n) ↔ x ∈ noted s other w ∨
    (other = use ∧ x = n ∧ Surfaces callee w use n) := by
  unfold carryOver Surfaces
  split
  · next hown => simp [hown]
  · next hown => simp [carry, Fate.mem_noted_apply hroot, Fate.mem_names, hown]

theorem mem_written_carryOver : x ∈ (carryOver s callee use w n).written ↔
    x ∈ w.written ∨ (use = .write ∧ x = n ∧ Surfaces callee w use n) := by
  unfold carryOver Surfaces
  split
  · next hown => simp [hown]
  · next hown => simp [carry, Fate.mem_written_apply, Fate.mem_names, hown]

theorem writtenAt_carryOver {a : Nat} {f : String} (h : w.memory.WrittenAt a f) (n : String) :
    (carryOver s callee use w n).memory.WrittenAt a f := by
  unfold carryOver
  split
  · exact h
  · rw [carry]
    cases fate w use n with
    | lost | shared => exact h
    | noted c => exact h.withUse use s.name c

theorem foldl_carryOver {P : Walk → Prop} (hP : ∀ w n, P w → P (carryOver s callee use w n))
    (names : List String) (hw : P w) : P (names.foldl (carryOver s callee use) w) :=
  List.foldlRecOn names _ hw fun w hw n _ => hP w n hw

theorem mem_noted_foldl : ∀ (names : List String) {w : Walk},
    s.root < w.functions.size → (x ∈ noted s other (names.foldl (carryOver s callee use) w) ↔
      x ∈ noted s other w ∨ (other = use ∧ x ∈ names ∧ Surfaces callee w use x))
  | [], _, _ => by simp
  | n :: names, w, hroot => by
    rw [List.foldl_cons, mem_noted_foldl names (by rwa [size_carryOver]),
      mem_noted_carryOver hroot, surfaces_carryOver (by cases use <;> simp), List.mem_cons]
    grind

theorem mem_written_foldl : ∀ (names : List String) {w : Walk},
    x ∈ (names.foldl (carryOver s callee use) w).written ↔
      x ∈ w.written ∨ (use = .write ∧ x ∈ names ∧ Surfaces callee w use x)
  | [], _ => by simp
  | n :: names, w => by
    rw [List.foldl_cons, mem_written_foldl names, mem_written_carryOver,
      surfaces_carryOver (by cases use <;> simp), List.mem_cons]
    grind

/-- Every block that is noted as written is. -/
theorem writtenAt_foldl {a : Nat} (hown : ¬ Text.starts (ownerStart callee.name.plain) n = true) :
    ∀ {names : List String} {w : Walk}, Linked none w.memory → n ∈ names →
      fate w .write n = .noted a →
      (names.foldl (carryOver s callee .write) w).memory.WrittenAt a s.name
  | x :: names, w, hl, hn, hf => by
    rcases List.mem_cons.mp hn with rfl | hn
    · refine foldl_carryOver (P := fun w => w.memory.WrittenAt a s.name)
        (fun _ n hw => writtenAt_carryOver hw n) names ?_
      obtain ⟨_, ha, _⟩ := fate_eq_noted.mp hf
      obtain ⟨b, hb, _⟩ := Option.map_eq_some_iff.mp (hl.name n a ha)
      rw [carryOver, if_neg hown, carry, hf]
      exact writtenAt_withUse hl hb s.name
    · exact writtenAt_foldl hown (w := carryOver s callee .write w x) (linked_carryOver hl x) hn
        ((fate_carryOver (.inr rfl) x n).trans hf)

end Uses

/-! ## The call -/

/-- Adds what the callee does, with its reads and its writes in a given order. -/
def mergeInOrder (s : Scope) (callee : Function) (arguments : List Node)
    (reads writes : List String) : WalkM Unit := do
  let actuals ← actualsOf s callee [] (callee.params.zip arguments)
  reads.forM (mergeUse s callee actuals .read)
  writes.forM (mergeUse s callee actuals .write)
  callee.pointerEnds.entries.forM fun e => mergePointer s callee actuals e.1 e.2

section Call

variable {s : Scope} {callee : Function} {w : Walk}

/-- What is passed by value has no actual. -/
theorem actualsOf_byValue (h : callee.ByValue w.memory) : ∀ {args : List (Label × Node)},
    (∀ e ∈ args, e.1 ∈ callee.params) → actualsOf s callee [] args w = .ok [] w
  | [], _ => rfl
  | (param, argument) :: rest, hargs => by
    have hnone : actualOf? s callee param argument w = .ok none w := by
      have hparam := h param (hargs _ (List.mem_cons_self ..))
      unfold actualOf?
      cases hid : callee.vars.get? (ownedName callee.name.plain param.plain) with
      | none => rfl
      | some id =>
        refine (bind_of_ok rfl).trans ?_
        rw [hparam id hid]
        rfl
    exact (bind_of_ok hnone).trans
      (actualsOf_byValue h fun e he => hargs e (List.mem_cons_of_mem _ he))

/-- The caller after the reads and the writes of the callee are carried over. -/
def carryAll (s : Scope) (callee : Function) (w : Walk) (reads writes : List String) : Walk :=
  writes.foldl (carryOver s callee .write) (reads.foldl (carryOver s callee .read) w)

variable {reads writes : List String} {n : String}

theorem carryAll_perm {reads' writes' : List String} (hreads : reads.Perm reads')
    (hwrites : writes.Perm writes') :
    carryAll s callee w reads writes = carryAll s callee w reads' writes' := by
  have hcomm : ∀ use x y w, carryOver s callee use (carryOver s callee use w x) y =
      carryOver s callee use (carryOver s callee use w y) x := fun _ x y _ => carryOver_comm x y
  rw [carryAll, carryAll, hreads.foldl_eq' (fun x _ y _ w => hcomm .read x y w),
    hwrites.foldl_eq' fun x _ y _ w => hcomm .write x y w]

theorem linked_carryAll (hl : Linked none w.memory) (reads writes : List String) :
    Linked none (carryAll s callee w reads writes).memory :=
  foldl_carryOver (P := fun w' => Linked none w'.memory)
    (fun _ x h => linked_carryOver h x) _
    (foldl_carryOver (P := fun w' => Linked none w'.memory)
      (fun _ x h => linked_carryOver h x) _ hl)

/-- The order of what is carried over does not matter. -/
theorem mergeInOrder_eq (hl : Linked none w.memory) (hg : callee.Recorded w.memory)
    (hv : callee.ByValue w.memory) (arguments : List Node) (hreads : reads.Perm callee.reads.toList)
    (hwrites : writes.Perm callee.writes.toList) :
    mergeInOrder s callee arguments reads writes w =
      callee.pointerEnds.entries.forM (fun e => mergePointer s callee [] e.1 e.2)
      (carryAll s callee w callee.reads.toList callee.writes.toList) := by
  have hactuals : actualsOf s callee [] (callee.params.zip arguments) w = .ok [] w :=
    actualsOf_byValue hv fun _ he => (List.of_mem_zip he).1
  have hl₁ : Linked none (reads.foldl (carryOver s callee .read) w).memory :=
    foldl_carryOver (P := fun w => Linked none w.memory)
      (fun _ n h => linked_carryOver h n) reads hl
  have haddress : ∀ n, (reads.foldl (carryOver s callee .read) w).memory.address? n =
      w.memory.address? n := fun n =>
    foldl_carryOver (P := fun w' => w'.memory.address? n = w.memory.address? n)
      (fun _ x h => (address?_carryOver x n).trans h) reads rfl
  refine (bind_of_ok hactuals).trans ?_
  refine (bind_of_ok (mergeUses_eq reads hl fun n hn => ?_)).trans ?_
  · exact hg .read n (hreads.mem_iff.mp hn)
  · refine (bind_of_ok (mergeUses_eq writes hl₁ fun n hn => ?_)).trans ?_
    · rw [haddress]
      exact hg .write n (hwrites.mem_iff.mp hn)
    · exact congrArg _ (carryAll_perm hreads hwrites)

/-- The callee uses a name that the caller sees, too: none of the callee's own, and that of a block
that is no pointer. -/
def Shows (T : TypeTable) (callee : Function) (m : Memory) (n : String) (a : Nat) : Prop :=
  Text.starts (ownerStart callee.name.plain) n = false ∧ m.NamesPlain T n a

/-- In `w'` the caller has what it had in `w` and what the callee does. -/
structure Composed (s : Scope) (callee : Function) (w w' : Walk) : Prop where
  reads : ∀ n, n ∈ noted s .read w' ↔ n ∈ noted s .read w ∨
    (n ∈ callee.reads ∧ n ∉ w.written ∧ ∃ a, Shows s.types callee w.memory n a)
  writes : ∀ n, n ∈ noted s .write w' ↔ n ∈ noted s .write w ∨
    (n ∈ callee.writes ∧ ∃ a, Shows s.types callee w.memory n a)
  written : ∀ n, n ∈ w'.written ↔ n ∈ w.written ∨
    (n ∈ callee.writes ∧ ∃ a, Shows s.types callee w.memory n a)
  writers : ∀ n ∈ callee.writes, ∀ a, Shows s.types callee w.memory n a →
    w'.memory.WrittenAt a s.name

theorem namesPlain_iff {T : TypeTable} {m : Memory} {a : Nat}
    (hn : (m.address? n).isSome) :
    m.NamesPlain T n a ↔ n ≠ "" ∧ m.address? n = some a ∧ m.isPointerAt a = false := by
  obtain ⟨c, hc⟩ := Option.isSome_iff_exists.mp hn
  by_cases hne : n = ""
  · subst hne
    refine iff_of_false ?_ fun h => h.1 rfl
    rintro ⟨m', hr, _⟩
    cases hr
  · have hresolve := resolve_known T hne hc
    constructor
    · rintro ⟨m', hr, hpointer⟩
      rw [hresolve] at hr
      cases hr
      exact ⟨hne, hc, hpointer⟩
    · rintro ⟨_, ha, hpointer⟩
      exact ⟨m, hc.symm.trans ha ▸ hresolve, hpointer⟩

/-- What the callee shows is what is noted of it, but for reads after writes. -/
theorem fate_of_recorded (use : Use) (hg : callee.Recorded w.memory) (hn : n ∈ callee.names use)
    (other : Use) (a : Nat) :
    ¬ Text.starts (ownerStart callee.name.plain) n = true ∧ fate w other n = .noted a ↔
    (other = .read → n ∉ w.written) ∧ Shows s.types callee w.memory n a := by
  rw [fate_eq_noted, Shows, Bool.not_eq_true]
  constructor
  · rintro ⟨hown, hne, ha, hpointer, hread⟩
    exact ⟨hread, hown, (namesPlain_iff (by rw [ha]; rfl)).mpr ⟨hne, ha, hpointer⟩⟩
  · rintro ⟨hread, hown, hdenotes⟩
    have hsome := (hg use n hn).resolve_left (by rw [hown]; exact Bool.false_ne_true)
    obtain ⟨hne, ha, hpointer⟩ := (namesPlain_iff hsome).mp hdenotes
    exact ⟨hown, hne, ha, hpointer, hread⟩

theorem surfaces_iff (use : Use) (hg : callee.Recorded w.memory) (hn : n ∈ callee.names use)
    (other : Use) :
    Surfaces callee w other n ↔ (other = .read → n ∉ w.written) ∧
    ∃ a, Shows s.types callee w.memory n a := by
  have hiff := fate_of_recorded (s := s) use hg hn other
  unfold Surfaces
  constructor
  · rintro ⟨hown, a, hf⟩
    obtain ⟨hread, hshows⟩ := (hiff a).mp ⟨hown, hf⟩
    exact ⟨hread, a, hshows⟩
  · rintro ⟨hread, a, hshows⟩
    obtain ⟨hown, hf⟩ := (hiff a).mpr ⟨hread, hshows⟩
    exact ⟨hown, a, hf⟩

/-- The uses of the callee, carried over one after the other. -/
theorem composed_carryAll (hl : Linked none w.memory) (hroot : s.root < w.functions.size)
    (hg : callee.Recorded w.memory) :
    Composed s callee w (carryAll s callee w callee.reads.toList callee.writes.toList) := by
  generalize hw₁ : callee.reads.toList.foldl (carryOver s callee .read) w = w₁
  have hfate : ∀ n, fate w₁ .write n = fate w .write n := fun n => hw₁ ▸
    foldl_carryOver (P := fun w' => fate w' .write n = fate w .write n)
      (fun _ x h => (fate_carryOver (.inl rfl) x n).trans h) _ rfl
  have hsurfaces : ∀ n, Surfaces callee w₁ .write n ↔ Surfaces callee w .write n := fun n => by
    rw [Surfaces, Surfaces, hfate]
  have hroot₁ : s.root < w₁.functions.size := hw₁ ▸
    foldl_carryOver (P := fun w' => s.root < w'.functions.size)
      (fun _ x h => (size_carryOver x).symm ▸ h) _ hroot
  have hl₁ : Linked none w₁.memory := hw₁ ▸
    foldl_carryOver (P := fun w' => Linked none w'.memory)
      (fun _ x h => linked_carryOver h x) _ hl
  have hread : ∀ other n, n ∈ noted s other w₁ ↔
      n ∈ noted s other w ∨ (other = .read ∧ n ∈ callee.reads ∧ Surfaces callee w .read n) :=
    fun _ n => hw₁ ▸ mem_noted_foldl _ hroot
  have hwritten : ∀ n, n ∈ w₁.written ↔ n ∈ w.written := fun n => by
    rw [← hw₁, mem_written_foldl]
    simp
  unfold carryAll
  rw [hw₁]
  refine ⟨fun n => ?_, fun n => ?_, fun n => ?_, fun n hn a hshows => ?_⟩
  · rw [mem_noted_foldl _ hroot₁, hread]
    simp only [reduceCtorEq, false_and, or_false, true_and]
    refine or_congr_right (and_congr_right fun hn => ?_)
    rw [surfaces_iff (s := s) .read hg hn]
    simp
  · rw [mem_noted_foldl _ hroot₁, hread]
    simp only [reduceCtorEq, false_and, or_false, true_and]
    refine or_congr_right (and_congr_right fun hn => ?_)
    rw [hsurfaces, surfaces_iff (s := s) .write hg hn]
    simp
  · rw [mem_written_foldl, hwritten]
    simp only [true_and]
    refine or_congr_right (and_congr_right fun hn => ?_)
    rw [hsurfaces, surfaces_iff (s := s) .write hg hn]
    simp
  · obtain ⟨hown, hf⟩ := (fate_of_recorded .write hg hn .write a).mpr
      ⟨fun h => (by cases h), hshows⟩
    exact writtenAt_foldl hown hl₁ hn ((hfate n).trans hf)

/-- The pointers of the callee change neither uses nor marks of the caller. -/
theorem composed_mergePointers {w₀ : Walk} (h : Composed s callee w₀ w)
    (hl : Linked none w.memory) (actuals : List Actual)
    (entries : List (Nat × Option Int)) :
    Ends (entries.forM fun e => mergePointer s callee actuals e.1 e.2) w
      (fun _ => Composed s callee w₀) fun _ => Composed s callee w₀ := by
  generalize hx : (entries.forM fun e => mergePointer s callee actuals e.1 e.2) = x
  have hnoted : ∀ use, Keeps (fun w' => noted s use w' = noted s use w) x := fun use =>
    hx ▸ noted_mergePointers (P := (· = noted s use w)) callee actuals entries
  have hwritten : Keeps (fun w' => w'.written = w.written) x := hx ▸
    .forM fun e _ =>
      written_marks.mergePointer (ofNotes_written.moves s).repoint callee actuals e.1 e.2
  have hstart : Framed s.name (fun _ => False) w.memory w.memory :=
    .refl hl.pos (fun _ h => h.elim) (fun _ _ hb => hl.var_lt hb) fun _ h => h.elim
  have hinside : Keeps
      (Inside s (fun _ => False) w.memory (w.functions.map Function.signature)) x := hx ▸
    .forM fun e _ => inside_stable.mergePointer inside_stable.repoint callee actuals e.1 e.2
  have hcomposed : ∀ w', noted s .read w' = noted s .read w → noted s .write w' = noted s .write w →
      w'.written = w.written → Framed s.name (fun _ => False) w.memory w'.memory →
      Composed s callee w₀ w' := by
    intro w' hr hw hn hframed
    refine ⟨fun n => hr ▸ h.reads n, fun n => hw ▸ h.writes n, fun n => hn ▸ h.written n, ?_⟩
    exact fun n hn a hshows => hframed.writtenAt (h.writers n hn a hshows)
  have hr := (hnoted .read).ends w rfl
  have hw := (hnoted .write).ends w rfl
  have hn := hwritten.ends w rfl
  have hi := hinside.ends w ⟨hstart, trivial, rfl⟩
  exact ⟨fun a w' hrun => hcomposed w' (hr.value a w' hrun) (hw.value a w' hrun)
      (hn.value a w' hrun) (hi.value a w' hrun).memory,
    fun e w' hrun => hcomposed w' (hr.fault e w' hrun) (hw.fault e w' hrun)
      (hn.fault e w' hrun) (hi.fault e w' hrun).memory⟩

end Call

end Walk

namespace Project

open Walk

variable {fs : Files} {path : String} {p : Project}

/-- The walked function has a record in every state of its body. -/
theorem root_lt_size {id : Nat} {s : Scope} {w₀ w : Walk}
    (henters : Analysis.Enters p.types id p.analysis s w₀) (hrecorded : w₀.Recorded)
    (hsteps : Steps s w₀ w) : s.root < w.functions.size := by
  obtain ⟨f, a₄, defaults, hf, hrest, rfl, rfl, _⟩ := henters.rest
  have hfunctions : a₄.functions = p.analysis.functions := by rw [hrest]
  rw [hsteps.size hrecorded]
  show id < a₄.functions.size
  rw [hfunctions]
  exact (Array.getElem?_eq_some_iff.mp hf).1

/-- A call of a function without pointer and array parameters adds to the caller what the callee
reads and the caller has not written, and what the callee writes, in whatever order the names are
taken. -/
theorem call_composes (hp : Reached fs path p) {id : Nat} {s : Scope} {w₀ w w₁ : Walk}
    (henters : Analysis.Enters p.types id p.analysis s w₀) (hsteps : Steps s w₀ w)
    {i : NodeInfo} {cs : List Node} {d : Option Node} (hi : i.kind = .call)
    (hread : readArguments s i cs w = .ok ⟨⟩ w₁) {g : Function}
    (hg : calleeOf? p.analysis.index w₁.functions i = some g) (hv : g.ByValue w₁.memory) :
    Ends (walk p.analysis.index s (.mk i cs d)) w (fun _ => Composed s g w₁)
        (fun _ => Composed s g w₁) ∧
      ∀ reads writes, reads.Perm g.reads.toList → writes.Perm g.writes.toList →
        walk p.analysis.index s (.mk i cs d) w =
          mergeInOrder s g (Node.mk i cs d).arguments reads writes w₁ := by
  have haimed := hsteps.aimed (henters.aimed hp.aimed.analysis)
  have hminds : Walk.MindsAny s w₀ w.memory (readArguments s i cs) :=
    minds_readEach cs _
  have hsteps₁ : Steps s w₀ w₁ :=
    ((hminds.ends w ⟨haimed, hsteps⟩ (.refl _)).value _ _ hread).1.steps
  have hrecorded₀ := hp.recorded_steps henters .refl
  have hrecorded := hsteps₁.recorded hrecorded₀
  have hroot := root_lt_size henters hrecorded₀ hsteps₁
  have hl := hrecorded.listed.linked
  have hrec := hrecorded.functions g (mem_of_calleeOf? hg)
  have hwalk : walk p.analysis.index s (.mk i cs d) w =
      mergeCallee s g (Node.mk i cs d).arguments w₁ := by
    rw [walk_call hi]
    refine (bind_of_ok hread).trans ?_
    rw [mergeCall_eq, hg]
    rfl
  have hmerge : ∀ reads writes, reads.Perm g.reads.toList → writes.Perm g.writes.toList →
      mergeInOrder s g (Node.mk i cs d).arguments reads writes w₁ = _ :=
    fun _ _ hreads hwrites => mergeInOrder_eq hl hrec hv (Node.mk i cs d).arguments hreads hwrites
  have hcallee := hwalk.trans (hmerge _ _ (.refl _) (.refl _))
  refine ⟨?_, fun reads writes hreads hwrites =>
    hcallee.trans (hmerge reads writes hreads hwrites).symm⟩
  have hends := composed_mergePointers (composed_carryAll hl hroot hrec)
    (linked_carryAll hl _ _) [] g.pointerEnds.entries
  exact ⟨fun u w' hrun => hends.value u w' (hcallee ▸ hrun),
    fun e w' hrun => hends.fault e w' (hcallee ▸ hrun)⟩

/-- The tree of `x = 1`. -/
def assignX : Node := between "=" (named "x") one

/-- A file with `int x, y, z`, a function `g` that reads `x` and `y` and writes `z`, and a function
`f` that writes `x` and calls `g(x)`. -/
def sequence : Files := fileOf
  [intVar "x", intVar "y", intVar "z",
    definedAs "g" [declarationOf .paramDecl "a" "int" .other,
      between "=" (named "z") (named "x"), between "=" (named "z") (named "y")],
    definedAs "f" [assignX, .mk callOfG [named "x"] none]]

/-- The project once `g` is analysed, and in `f` the start of the body, the state after `x = 1`, and
the states before and after `g` is carried over. -/
def sequenceRun? : Option (Project × Scope × Walk × Walk × Walk × Walk) :=
  (after? (prepare sequence (sequence.absolute "p") {})).bind fun p₀ =>
    (after? (analyse 0 p₀)).bind fun p =>
      (Analysis.enter? p.types 1 p.analysis).bind fun e =>
        (after? (walk p.analysis.index e.1 assignX e.2)).bind fun w =>
          (after? (readArguments e.1 callOfG [named "x"] w)).bind fun w₁ =>
            (after? (walk p.analysis.index e.1 (.mk callOfG [named "x"] none) w)).map fun w' =>
              (p, e.1, e.2, w, w₁, w')

theorem call_composes_after_write : ∃ p s w₀ w w₁ w' g, Reached sequence "p" p ∧
    Analysis.Enters p.types 1 p.analysis s w₀ ∧ Steps s w₀ w ∧
    readArguments s callOfG [named "x"] w = .ok ⟨⟩ w₁ ∧
    calleeOf? p.analysis.index w₁.functions callOfG = some g ∧ g.ByValue w₁.memory ∧
    walk p.analysis.index s (.mk callOfG [named "x"] none) w = .ok ⟨⟩ w' ∧
    g.reads = ⟨["x", "y"]⟩ ∧ g.writes = ⟨["z"]⟩ ∧ w₁.written = ⟨["x"]⟩ ∧
    noted s .read w' = ⟨["y"]⟩ ∧ noted s .write w' = ⟨["x", "z"]⟩ ∧ Composed s g w₁ w' ∧
    walk p.analysis.index s (.mk callOfG [named "x"] none) w =
      mergeInOrder s g [named "x"] ["y", "x"] ["z"] w₁ := by
  have hrun : (sequenceRun?.bind fun r =>
      (calleeOf? r.1.analysis.index r.2.2.2.2.1.functions callOfG).map fun g =>
        decide (g.ByValue r.2.2.2.2.1.memory ∧ g.reads = ⟨["x", "y"]⟩ ∧ g.writes = ⟨["z"]⟩ ∧
          r.2.2.2.2.1.written = ⟨["x"]⟩ ∧ noted r.2.1 .read r.2.2.2.2.2 = ⟨["y"]⟩ ∧
          noted r.2.1 .write r.2.2.2.2.2 = ⟨["x", "z"]⟩)) = some true := by decide +kernel
  obtain ⟨r, hr, hchecks⟩ := Option.bind_eq_some_iff.mp hrun
  obtain ⟨g, hg, hchecks⟩ := Option.map_eq_some_iff.mp hchecks
  obtain ⟨hv, hreads, hwrites, hwritten, hr', hw'⟩ := of_decide_eq_true hchecks
  obtain ⟨p₀, hread, hr⟩ := ok_of_bind hr
  obtain ⟨p, hfirst, hr⟩ := ok_of_bind hr
  obtain ⟨⟨s, w₀⟩, henter, hr⟩ := Option.bind_eq_some_iff.mp hr
  obtain ⟨w, hassign, hr⟩ := ok_of_bind hr
  obtain ⟨w₁, hargs, hr⟩ := ok_of_bind hr
  obtain ⟨w', hcall, rfl⟩ := ok_of_map hr
  have hp : Reached sequence "p" p := .analysed (.read hread) hfirst
  have henters := Analysis.enters_of_enter? henter
  have hsteps : Steps s w₀ w :=
    (((minds_walk p.analysis.index assignX).ends w₀
      ⟨henters.aimed hp.aimed.analysis, .refl⟩ (.refl _)).value _ _ hassign).1.steps
  obtain ⟨hcomposed, horder⟩ := call_composes hp henters hsteps (d := none) rfl
    hargs hg hv
  refine ⟨p, s, w₀, w, w₁, w', g, hp, henters, hsteps, hargs, hg, hv,
    hcall, hreads, hwrites, hwritten, hr', hw',
    hcomposed.value _ _ hcall, horder _ _ ?_ ?_⟩
  · rw [hreads]
    exact List.Perm.swap ..
  · rw [hwrites]

end Project

end Footprint
