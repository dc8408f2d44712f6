import Footprint.Proofs.Memory.Changes
import Footprint.Proofs.Memory.Marked
import Footprint.Proofs.Memory.Users

/-!
# The marks of one use

A use of a block is noted at the variable of the block and at every pointer that
is known to point to it.  On a linked memory this is a closed expression of the
memory and the address, `withUse`: the same change, made at a list of variables.

Which variables these are depends on blocks and names only, and a use changes
neither.  So the uses of one kind by one function may be noted in any order.
-/

namespace Footprint

open Walk

namespace NameSet

theorem place_comm_of_lt {x y : String} (hxy : x < y) :
    ∀ ns, place x (place y ns) = place y (place x ns)
  | [] => by grind [place, String.lt_asymm]
  | n :: ns => by
    have ih := place_comm_of_lt hxy ns
    have hn : ∀ z, z = n ∨ z < n ∨ n < z := by
      intro z
      by_cases hlt : z < n
      · exact .inr (.inl hlt)
      · refine (Classical.em (n < z)).elim (fun h => .inr (.inr h)) fun h => .inl ?_
        exact String.le_antisymm (String.not_lt.mp h) (String.not_lt.mp hlt)
    grind [place, String.lt_asymm, String.lt_trans]

theorem insert_comm (s : NameSet) (x y : String) :
    (s.insert x).insert y = (s.insert y).insert x :=
  congrArg mk <| by
    by_cases hxy : x < y
    · exact (place_comm_of_lt hxy s.toList).symm
    · by_cases hyx : y < x
      · exact place_comm_of_lt hyx s.toList
      · rw [String.le_antisymm (String.not_lt.mp hyx) (String.not_lt.mp hxy)]

end NameSet

namespace Memory

variable {m : Memory} {g : Variable → Variable}

/-! ## One change of many variables -/

/-- The memory with the variables of a list changed. -/
def setVars (m : Memory) (ids : List VarId) (g : Variable → Variable) : Memory :=
  ids.foldl (fun m id => m.setVar id g) m

theorem setVar_comm (m : Memory) (i j : VarId) (g : Variable → Variable) :
    (m.setVar i g).setVar j g = (m.setVar j g).setVar i g := by
  have hvars : (m.vars.modify i g).modify j g = (m.vars.modify j g).modify i g := by
    refine Array.ext_getElem? fun k => ?_
    simp only [Array.getElem?_modify]
    split <;> split <;> rfl
  simp only [setVar, hvars]

theorem setVars_comm (m : Memory) (is js : List VarId) (g : Variable → Variable) :
    (m.setVars is g).setVars js g = (m.setVars js g).setVars is g := by
  simp only [setVars, ← List.foldl_append]
  exact List.perm_append_comm.foldl_eq' (fun i _ j _ m => setVar_comm m i j g) m

theorem setVars_eq (g : Variable → Variable) : ∀ (ids : List VarId) (m : Memory),
    m.setVars ids g = { m with vars := (m.setVars ids g).vars }
  | [], _ => rfl
  | id :: ids, m => setVars_eq g ids (m.setVar id g)

@[simp] theorem block?_setVars (m : Memory) (ids : List VarId) (g : Variable → Variable) (a : Nat) :
    (m.setVars ids g).block? a = m.block? a := by
  rw [setVars_eq]
  rfl

@[simp] theorem address?_setVars (m : Memory) (ids : List VarId) (g : Variable → Variable)
    (n : String) : (m.setVars ids g).address? n = m.address? n := by
  rw [setVars_eq]
  rfl

theorem varOf_setVars {α : Type} {part : Variable → α} (hg : ∀ v, part (g v) = part v) :
    ∀ (ids : List VarId) (m : Memory) (id : VarId),
      part ((m.setVars ids g).varOf id) = part (m.varOf id)
  | [], _, _ => rfl
  | i :: ids, m, id => by
    refine (varOf_setVars hg ids (m.setVar i g) id).trans ?_
    rw [varOf_setVar]
    split
    · exact hg _
    · rfl

theorem Linked.setVars (hname : ∀ v, (g v).name = v.name) (hparts : ∀ v, (g v).parts = v.parts) :
    ∀ (ids : List VarId) {m : Memory}, Linked none m → Linked none (m.setVars ids g)
  | [], _, h => h
  | _ :: ids, _, h => Linked.setVars hname hparts ids (h.setVar_same hname hparts)

theorem refs_congr {m' : Memory} (h : ∀ a, m'.block? a = m.block? a) (a : Nat) :
    m'.refs a = m.refs a := by
  induction a using Nat.strongRecOn with
  | ind a ih =>
    rw [refs, refs, h a]
    split
    · rfl
    · cases m.block? a with
      | none => rfl
      | some b =>
        dsimp only
        split
        · next hlt => rw [ih b.parent hlt]
        · rfl

/-! ## Where a use is noted -/

/-- The variables of the named pointers that have an address. -/
def pointerVars (m : Memory) (pointers : List String) : List VarId :=
  pointers.filterMap fun p => (m.address? p).bind fun a => (m.block? a).map Block.var

/-- The variables at which a use of the block at an address is noted. -/
def noters (m : Memory) (a : Nat) : List VarId :=
  m.pointerVars (m.refs a).toList ++ ((m.block? a).map Block.var).toList

theorem pointerVars_setVars (m : Memory) (ids : List VarId) (g : Variable → Variable)
    (pointers : List String) : (m.setVars ids g).pointerVars pointers = m.pointerVars pointers := by
  simp [pointerVars]

theorem noters_setVars (m : Memory) (ids : List VarId) (g : Variable → Variable) (a : Nat) :
    (m.setVars ids g).noters a = m.noters a := by
  rw [noters, noters, pointerVars_setVars, refs_congr (block?_setVars m ids g), block?_setVars]

/-- The pointers are marked all at once. -/
theorem markPointers_eq (hname : ∀ v, (g v).name = v.name) (hparts : ∀ v, (g v).parts = v.parts) :
    ∀ (pointers : List String) {m : Memory}, Linked none m →
      markPointers g pointers m = .ok ⟨⟩ (m.setVars (m.pointerVars pointers) g)
  | [], _, _ => rfl
  | p :: pointers, m, h => by
    have hrest := fun {m} (h : Linked none m) => markPointers_eq hname hparts pointers h
    cases ha : m.address? p with
    | none =>
      have hmark : markPointer g p m = .ok ⟨⟩ m := by
        refine (bind_of_ok rfl).trans ?_
        rw [ha]
        rfl
      refine (bind_of_ok hmark).trans ((hrest h).trans ?_)
      rw [pointerVars, pointerVars, List.filterMap_cons_none (by rw [ha]; rfl)]
    | some a =>
      obtain ⟨b, hb, _⟩ := Option.map_eq_some_iff.mp (h.name p a ha)
      have hmark : markPointer g p m = .ok ⟨⟩ (m.setVars [b.var] g) := by
        refine (bind_of_ok rfl).trans ?_
        rw [ha]
        exact (bind_of_ok (heldAt_ok h hb)).trans rfl
      refine (bind_of_ok hmark).trans ((hrest (h.setVars hname hparts [b.var])).trans ?_)
      rw [pointerVars_setVars, pointerVars, pointerVars,
        List.filterMap_cons_some (by rw [ha, Option.bind_some, hb]; rfl)]
      rfl

/-! ## The use of a block -/

/-- The variable with a use by `f` noted. -/
def marked (use : Use) (f : String) (v : Variable) : Variable :=
  match use with
  | .read => v.markRead f
  | .write => v.markWrite f

theorem marked_unmarked (use : Use) (f : String) (v : Variable) :
    (marked use f v).unmarked = v.unmarked := by
  cases use with
  | read => exact unmarked_markRead f v
  | write => exact unmarked_markWrite f v

/-- A use changes nothing but marks. -/
theorem marked_eq {α : Type} {part : Variable → α} (hpart : ∀ v, part v.unmarked = part v)
    (use : Use) (f : String) (v : Variable) : part (marked use f v) = part v :=
  Variable.eq_of_unmarked (marked_unmarked use f v) hpart

/-- A read adds no writer, and a write takes none away. -/
theorem mem_writers_marked {use : Use} {f h : String} {v : Variable} :
    h ∈ (marked use f v).writers ↔ h ∈ v.writers ∨ (use = .write ∧ h = f) := by
  cases use with
  | read =>
    have hsame : (v.markRead f).writers = v.writers := by
      unfold Variable.markRead
      split <;> rfl
    rw [marked, hsame]
    simp
  | write =>
    unfold marked Variable.markWrite
    dsimp only
    split
    · next hf =>
      have hmem : f ∈ v.writers := List.contains_iff_mem.mp hf
      simp only [true_and]
      exact ⟨.inl, fun h => h.elim id fun he => he ▸ hmem⟩
    · rw [NameSet.mem_insert]
      simp [or_comm]

/-- A read by `f` of the block at an address is not noted after a write by `f`. -/
def hides (m : Memory) (use : Use) (f : String) (a : Nat) : Bool :=
  decide (use = .read) && (m.block? a).any fun b => (m.varOf b.var).writers.contains f

/-- The memory with a use of the block at an address noted. -/
def withUse (m : Memory) (use : Use) (f : String) (a : Nat) : Memory :=
  if m.hides use f a then m else m.setVars (m.noters a) (marked use f)

section Use

variable {use : Use} {f : String} {a : Nat} {b : Block}

theorem Linked.withUse (h : Linked none m) (use : Use) (f : String) (a : Nat) :
    Linked none (m.withUse use f a) := by
  unfold Memory.withUse
  split
  · exact h
  · exact h.setVars (marked_eq (fun _ => rfl) use f) (marked_eq (fun _ => rfl) use f) _

theorem markAt_eq (h : Linked none m) (hb : m.block? a = some b) (g : Variable → Variable) :
    markAt g a m = .ok ⟨⟩ (m.setVars [b.var] g) :=
  (bind_of_ok (heldAt_ok h hb)).trans rfl

/-- The pointers to a block and the block itself are marked. -/
theorem markPointers_markAt (h : Linked none m) (hb : m.block? a = some b) (use : Use)
    (f : String) :
    (markPointers (marked use f) (m.refs a).toList >>= fun _ => markAt (marked use f) a) m =
      .ok ⟨⟩ (m.setVars (m.noters a) (marked use f)) := by
  have hname : ∀ v, (marked use f v).name = v.name := marked_eq (fun _ => rfl) use f
  have hparts : ∀ v, (marked use f v).parts = v.parts := marked_eq (fun _ => rfl) use f
  refine (bind_of_ok (markPointers_eq hname hparts _ h)).trans ?_
  rw [markAt_eq (h.setVars hname hparts _) ((block?_setVars ..).trans hb), noters, hb]
  simp only [setVars, List.foldl_append]
  rfl

theorem read_eq (h : Linked none m) (hb : m.block? a = some b) (f : String) :
    read a f m = .ok ⟨⟩ (m.withUse .read f a) := by
  refine (bind_of_ok (heldAt_ok h hb)).trans ((bind_of_ok rfl).trans ?_)
  have hhides : m.hides .read f a = (m.varOf b.var).writers.contains f := by
    rw [hides, hb]
    rfl
  rw [withUse, hhides]
  split
  · rfl
  · exact markPointers_markAt h hb .read f

theorem write_eq (h : Linked none m) (hb : m.block? a = some b) (f : String) :
    write a f m = .ok ⟨⟩ (m.withUse .write f a) :=
  (bind_of_ok (heldAt_ok h hb)).trans
    ((bind_of_ok rfl).trans (markPointers_markAt h hb .write f))

@[simp] theorem block?_withUse (m : Memory) (use : Use) (f : String) (a c : Nat) :
    (m.withUse use f a).block? c = m.block? c := by
  unfold withUse
  split
  · rfl
  · exact block?_setVars ..

@[simp] theorem address?_withUse (m : Memory) (use : Use) (f : String) (a : Nat)
    (n : String) : (m.withUse use f a).address? n = m.address? n := by
  unfold withUse
  split
  · rfl
  · exact address?_setVars ..

theorem varOf_withUse {α : Type} {part : Variable → α} (hpart : ∀ v, part v.unmarked = part v)
    (m : Memory) (use : Use) (f : String) (a : Nat) (id : VarId) :
    part ((m.withUse use f a).varOf id) = part (m.varOf id) := by
  unfold withUse
  split
  · rfl
  · exact varOf_setVars (marked_eq hpart use f) _ m id

/-- Whether a use is hidden does not change while uses of the same kind are noted. -/
theorem hides_withUse (m : Memory) (use : Use) (f : String) (a c : Nat) :
    (m.withUse use f a).hides use f c = m.hides use f c := by
  cases use with
  | write => rfl
  | read =>
    have hwriters : ∀ v : Variable, (marked .read f v).writers = v.writers := by
      intro v
      unfold marked Variable.markRead
      dsimp only
      split <;> rfl
    unfold hides
    rw [block?_withUse]
    unfold withUse
    split
    · rfl
    · simp only [varOf_setVars hwriters]

theorem noters_withUse (m : Memory) (use : Use) (f : String) (a c : Nat) :
    (m.withUse use f a).noters c = m.noters c := by
  unfold withUse
  split
  · rfl
  · exact noters_setVars ..

/-- Uses of one kind by one function may be noted in any order. -/
theorem withUse_comm (m : Memory) (use : Use) (f : String) (a c : Nat) :
    (m.withUse use f a).withUse use f c = (m.withUse use f c).withUse use f a := by
  have hexpand : ∀ a c, (m.withUse use f a).withUse use f c =
      if m.hides use f c then m.withUse use f a
      else (m.withUse use f a).setVars (m.noters c) (marked use f) := by
    intro a c
    rw [withUse, hides_withUse, noters_withUse]
  rw [hexpand, hexpand, withUse, withUse]
  split
  · rfl
  · split
    · rfl
    · exact setVars_comm ..

/-! ## Who has written a block -/

variable {h : String}

theorem WrittenAt.setVars (hg : ∀ v : Variable, h ∈ v.writers → h ∈ (g v).writers) :
    ∀ (ids : List VarId) {m : Memory}, m.WrittenAt a h → (m.setVars ids g).WrittenAt a h
  | [], _, hw => hw
  | id :: ids, m, hw => by
    obtain ⟨b, hb, hwriter⟩ := hw
    refine WrittenAt.setVars hg ids (m := m.setVar id g) ⟨b, hb, ?_⟩
    rw [varOf_setVar]
    split
    · exact hg _ hwriter
    · exact hwriter

theorem WrittenAt.withUse (hw : m.WrittenAt a h) (use : Use) (f : String)
    (c : Nat) : (m.withUse use f c).WrittenAt a h := by
  unfold Memory.withUse
  split
  · exact hw
  · exact hw.setVars (fun _ hv => mem_writers_marked.mpr (.inl hv)) _

/-- A block that is used as written is. -/
theorem writtenAt_withUse (hl : Linked none m) (hb : m.block? a = some b) (f : String) :
    (m.withUse .write f a).WrittenAt a f := by
  refine ⟨b, (block?_withUse ..).trans hb, ?_⟩
  have hlast : m.withUse .write f a =
      (m.setVars (m.pointerVars (m.refs a).toList) (marked .write f)).setVar b.var
        (marked .write f) := by
    show m.setVars (m.noters a) _ = _
    rw [noters, hb]
    simp only [setVars, List.foldl_append]
    rfl
  have hsize : b.var < (m.setVars (m.pointerVars (m.refs a).toList) (marked .write f)).vars.size :=
    (hl.setVars (marked_eq (fun _ => rfl) .write f) (marked_eq (fun _ => rfl) .write f) _).var_lt
      ((block?_setVars ..).trans hb)
  rw [hlast, varOf_setVar, if_pos ⟨rfl, hsize⟩]
  exact mem_writers_marked.mpr (.inr ⟨rfl, rfl⟩)

/-- What a function has written before, it has written after its analysis went on. -/
theorem Framed.writtenAt {params : VarId → Prop} {m₀ : Memory} (h : Framed f params m₀ m)
    (hw : m₀.WrittenAt a f) : m.WrittenAt a f := by
  obtain ⟨b, hb, hwriter⟩ := hw
  obtain ⟨b', hb', _, _, hvar⟩ := h.block a b hb
  exact ⟨b', hb', hvar ▸ (h.marks b.var).written hwriter⟩

end Use

end Memory

end Footprint
