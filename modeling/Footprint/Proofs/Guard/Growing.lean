import Footprint.Proofs.Memory.Owned
import Footprint.Proofs.StraightLine.Tokens

/-!
# Guards of a memory that grows

A few steps are taken together in many places: a use is noted at a block and in
the record, a pointer is found by its name.  They keep what their parts keep
(`Handles`).

A `Growing` is what a run keeps while its memory grows.  A run that stops with a
fault keeps it, too, but for the list of pointers that are still to be declared,
and unless a layout never ends.  From a memory on it is a guard, so that the
walk keeps it if its steps do.
-/

namespace Footprint.Walk

open Memory (Grows)

/-! ## Single steps -/

/-- The step keeps the state, whatever its result is. -/
abbrev Does {α : Type} (I : Walk → Prop) (m₀ : Memory) (x : WalkM α) : Prop :=
  Minds I memory m₀ (fun _ _ => True) x

/-- The state is kept by what single steps do, with addresses as `A` says and names as `N` says. -/
structure Handles (s : Scope) (I : Walk → Prop) (A : Memory → Int → Prop)
    (N : Memory → String → Prop) : Prop where
  later_address : ∀ {m m' a}, A m a → Grows m m' → A m' a
  later_name : ∀ {m m' n}, N m n → Grows m m' → N m' n
  variableAt : ∀ {m a}, A m a → Minds I memory m (fun found m' => ∀ id v,
    found = some (id, v) → (id < m'.vars.size ∧ m'.varOf id = v) ∧ N m' v.name ∧
      ∀ t, v.target = some t → A m' t) (variableAt a)
  read : ∀ {m a}, A m a → Does I m (onMemory (Memory.read a s.name))
  write : ∀ {m a}, A m a → Does I m (onMemory (Memory.write a s.name))
  change : ∀ {m id} {g : Variable → Variable}, id < m.vars.size → N m (m.varOf id).name →
    (∀ v, (g v).unmarked = v.unmarked) → Does I m (onMemory (Memory.change id g))
  noteName : ∀ {m n} (use : Use), N m n → Does I m (noteName s use n)
  setEnd : ∀ {m} {p : Nat} {target : Option Int}, A m p → (∀ t, target = some t → A m t) →
    Does I m (changeRoot s fun f => { f with pointerEnds := f.pointerEnds.set p target })
  written : ∀ {w} (names : NameSet), I w → I { w with written := names }

section Single

variable {s : Scope} {I : Walk → Prop} {A : Memory → Int → Prop} {N : Memory → String → Prop}
variable {m₀ : Memory} {α : Type}

theorem does_pure (a : α) : Does I m₀ (pure a) := .pure fun _ _ => trivial

namespace Handles

variable (h : Handles s I A N)

include h

theorem mark {a : Int} (ha : A m₀ a) (use : Use) : Does I m₀ (mark s use a) := by
  refine .bind (h.variableAt ha) fun v m₁ hg₁ hv => ?_
  cases v with
  | none => exact does_pure _
  | some v =>
    obtain ⟨_, hname, _⟩ := hv v.1 v.2 rfl
    dsimp only
    split
    · exact does_pure _
    · cases use with
      | read =>
        refine .get_bind fun w _ hg₂ => ?_
        split
        · exact does_pure _
        · exact .bind (h.read (h.later_address ha (hg₁.trans hg₂))) fun _ _ hg₃ _ =>
            h.noteName _ (h.later_name hname (hg₂.trans hg₃))
      | write =>
        refine .bind (h.write (h.later_address ha hg₁)) fun _ _ hg₂ _ => ?_
        refine .bind (h.noteName _ (h.later_name hname hg₂)) fun _ _ _ _ => ?_
        exact .modify (fun _ hw _ => h.written _ hw) fun _ => rfl

theorem markItself {a : Int} (ha : A m₀ a) (use : Use) : Does I m₀ (markItself s use a) := by
  refine .bind (h.variableAt ha) fun v m₁ _ hv => ?_
  cases v with
  | none => exact does_pure _
  | some v =>
    obtain ⟨⟨hid, hvar⟩, hname, _⟩ := hv v.1 v.2 rfl
    refine .bind (h.change hid (by rw [hvar]; exact hname) ?_) fun _ _ hg _ =>
      h.noteName use (h.later_name hname hg)
    cases use with
    | read => exact Memory.unmarked_markRead s.name
    | write => exact Memory.unmarked_markWrite s.name

/-- Where a pointer points in the end is noted, and else what its variable remembers. -/
theorem noteEnd {name : String} {target : Option Int}
    (ha : Minds I memory m₀ (fun found m => ∀ c : Nat, found = some c → A m c)
      (addressOf s name)) (ht : ∀ t, target = some t → A m₀ t) :
    Does I m₀ (Analysis.noteEnd s name target) := by
  refine .bind ha fun a m₁ hg₁ ha => ?_
  cases a with
  | none => exact does_pure _
  | some a =>
    refine .bind (h.variableAt (ha a rfl)) fun v m₂ hg₂ hv => ?_
    cases v with
    | none => exact does_pure _
    | some v =>
      dsimp only
      split
      · refine h.setEnd (h.later_address (ha a rfl) hg₂) fun t he => ?_
        cases target with
        | some c => exact h.later_address (ht t he) (hg₁.trans hg₂)
        | none => exact (hv v.1 v.2 rfl).2.2 t (Option.filter_eq_some_iff.mp he).1
      · exact does_pure _

end Handles

theorem does_remember {target : Option Int}
    (h : ∀ id, Does I m₀ (onMemory (Memory.change id fun v => { v with target })))
    (known : Option (VarId × Variable)) : Does I m₀ (remember target known) := by
  cases known with
  | none => exact does_pure _
  | some known =>
    unfold remember
    dsimp only
    split
    · exact h _
    · exact does_pure _

theorem does_share (h : ∀ g : Function → NameSet,
      Does I m₀ (changeRoot s fun f => { f with shared := g f })) (name : String) :
        Does I m₀ (share s name) := by
  unfold share
  split
  · exact does_pure _
  · exact h _

variable {name : String}

/-- A pointer at a name has a name as `N` says. -/
theorem finds_pointerNamed
    (ha : Minds I memory m₀ (fun found m => ∀ c : Nat, found = some c → A m c)
      (addressOf s name))
    (hv : ∀ {m a}, A m a → Minds I memory m (fun found m' => ∀ id v,
      found = some (id, v) → v.isPointer → N m' v.name) (variableAt a))
    (hN : ∀ {m m' n}, N m n → Grows m m' → N m' n) :
    Minds I memory m₀ (fun found m => ∀ key, found = some key → N m key)
      (pointerNamed s name) := by
  refine .bind ha fun a _ _ ha => ?_
  cases a with
  | none => exact .pure fun _ _ => nofun
  | some a =>
    refine .bind (hv (ha a rfl)) fun v _ _ hv => ?_
    cases v with
    | none => exact .pure fun _ _ => nofun
    | some v =>
      refine .pure fun m hg key hkey => ?_
      split at hkey
      · next hp =>
        cases hkey
        exact hN (hv v.1 v.2 rfl hp) hg
      · cases hkey

/-- The key of a pointer is the name of a pointer variable, or a key of the table. -/
theorem finds_pointerKey
    (hnamed : ∀ {m name}, name ≠ "" → Minds I memory m
      (fun found m => ∀ key, found = some key → N m key) (pointerNamed s name))
    (hkeys : ∀ {w : Walk} {key t}, I w → key ≠ "" → (key, t) ∈ w.pointers.entries →
      N w.memory key)
    (hN : ∀ {m m' n}, N m n → Grows m m' → N m' n) :
    Minds I memory m₀ (fun found m => ∀ key, found = some key → N m key)
      (pointerKey s name) := by
  unfold pointerKey
  split
  · exact .pure fun _ _ _ hk => by cases hk
  · next hempty =>
    have hne : name ≠ "" := by simpa using hempty
    have hown : ownedName s.name name ≠ "" := StraightLine.ownedName_ne_empty _ _
    refine .bind (hnamed hown) fun key _ _ hkey => ?_
    cases key with
    | some key => exact .pure fun _ hg k hk => hN (hkey k hk) hg
    | none =>
      refine .bind (hnamed hne) fun key _ _ hkey => ?_
      cases key with
      | some key => exact .pure fun _ hg k hk => hN (hkey k hk) hg
      | none =>
        refine .get_bind fun w hw _ => .pure fun m hg k hk => ?_
        have hentry {k : String} (hk : k ≠ "") (hc : w.pointers.contains k = true) :
            N w.memory k := by
          obtain ⟨t, ht⟩ := Option.isSome_iff_exists.mp hc
          exact hkeys hw hk (Table.mem_of_lookup ht)
        refine hN ?_ hg
        split at hk
        · next hc => cases hk; exact hentry hown hc
        · split at hk
          · next hc => cases hk; exact hentry hne hc
          · cases hk

end Single

/-! ## Runs -/

/-- What one run of a body keeps while memory grows. -/
structure Growing where
  state : Walk → Prop
  /-- Addresses that the run may come by. -/
  address : Memory → Int → Prop
  /-- Names that the run may come by. -/
  name : Memory → String → Prop
  /-- Nodes that may stand in the body. -/
  node : NodeInfo → Prop
  grows_address : ∀ {m m' a}, address m a → Grows m m' → address m' a
  grows_name : ∀ {m m' n}, name m n → Grows m m' → name m' n

namespace Growing

/-- What is kept from a memory on. -/
def guard (R : Growing) (m₀ : Memory) : Guard where
  state w := R.state w ∧ Grows m₀ w.memory
  fault e w := ¬ e.OutOfBounds ∧ (e ≠ .endless → R.state w ∧ Grows m₀ w.memory)
  later := Grows
  address := R.address
  name := R.name
  node := R.node
  refl := .refl
  trans := .trans
  later_address := R.grows_address
  later_name := R.grows_name
  stop h := ⟨id, fun _ => h⟩

variable {R : Growing} {α : Type} {m m₀ : Memory} {V : α → Memory → Prop} {x : WalkM α}

theorem passes (h : Minds R.state memory m V x) : (R.guard m₀).Passes m V x := by
  refine ⟨fun w hw hg => (h.ends w hw.1 hg).mono ?_ ?_⟩
  · exact fun _ _ hq => ⟨⟨hq.1, hw.2.trans hq.2.1⟩, hq.2⟩
  · exact fun _ _ hq => ⟨hq.1, fun hne => ⟨(hq.2 hne).1, hw.2.trans (hq.2 hne).2⟩⟩

/-- Steps that keep the guard from where they start keep what it is made of. -/
theorem mindsAt {w : Walk} (h : (R.guard w.memory).Passes m V x) (hw : R.state w)
    (hg : Grows m w.memory) : MindsAt R.state memory w V x :=
  (h.ends w ⟨hw, .refl _⟩ hg).mono (fun _ _ hq => ⟨hq.1.1, hq.2⟩) fun _ _ hq => hq

/-- The walk over a body keeps what its steps do. -/
theorem walkBody {calls : CallIndex} {s : Scope} {U : Use → Prop}
    (h : ∀ m₀, (R.guard m₀).Sound calls s U) {body : Node} (hn : body.Every R.node) {w : Walk}
    (hw : R.state w) :
    Ends (walkBody calls s body) w (fun _ => R.state) fun e w' => e ≠ .endless → R.state w' :=
  (mindsAt ((h w.memory).walkBody hn) hw (.refl _)).mono (fun _ _ hq => hq.1)
    fun _ _ hq hne => (hq.2 hne).1

end Growing

end Footprint.Walk
