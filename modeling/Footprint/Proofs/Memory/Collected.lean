import Footprint.Proofs.Interface
import Footprint.Proofs.Memory.Marked
import Footprint.Proofs.Memory.Users

/-!
# Wholes with the marks of their parts

When all functions are analysed, the blocks are searched from the roots, and
every whole is given the marks of its parts.  When the search comes back from a
part it has been to all that lies within it, so the part has the marks of its own
parts by then.  In the end a block has the marks of all blocks that lie within it.

`Gathered` says what holds on the way, when some blocks have given their marks to
the wholes they are parts of.  One turn adds a block whose own parts have had
their turn, and a search adds all blocks within the one it starts from.
-/

namespace Footprint

/-! ## Ascending sets -/

namespace NameSet

/-- The names stand in ascending order, each once. -/
def Ascending (s : NameSet) : Prop := s.toList.Pairwise (· < ·)

instance (s : NameSet) : Decidable s.Ascending := inferInstanceAs (Decidable (List.Pairwise _ _))

variable {n : String} {ns : List String}

theorem pairwise_place (h : ns.Pairwise (· < ·)) : (place n ns).Pairwise (· < ·) := by
  induction ns with
  | nil => simp [place]
  | cons m rest ih =>
    obtain ⟨hm, hrest⟩ := List.pairwise_cons.mp h
    unfold place
    split
    · exact h
    next hne =>
    split
    · next hlt =>
      refine List.pairwise_cons.mpr ⟨fun k hk => ?_, h⟩
      rcases List.mem_cons.mp hk with rfl | hk
      · exact hlt
      · exact String.lt_trans hlt (hm k hk)
    · next hnlt =>
      refine List.pairwise_cons.mpr ⟨fun k hk => ?_, ih hrest⟩
      rcases mem_place.mp hk with rfl | hk
      · exact Std.lt_of_le_of_ne hnlt (Ne.symm hne)
      · exact hm k hk

theorem place_of_mem (h : ns.Pairwise (· < ·)) (hn : n ∈ ns) : place n ns = ns := by
  induction ns with
  | nil => cases hn
  | cons m rest ih =>
    obtain ⟨hm, hrest⟩ := List.pairwise_cons.mp h
    rcases List.mem_cons.mp hn with rfl | hn
    · simp [place]
    · have hlt := hm n hn
      have hne : n ≠ m := fun he => String.lt_irrefl m (he ▸ hlt)
      simp [place, hne, String.lt_asymm hlt, ih hrest hn]

variable {s t : NameSet}

theorem Ascending.insert (h : s.Ascending) (n : String) : (s.insert n).Ascending :=
  pairwise_place h

theorem Ascending.union (h : s.Ascending) (t : NameSet) : (s.union t).Ascending := by
  suffices ∀ (ns : List String) {s : NameSet}, s.Ascending →
      (ns.foldl NameSet.insert s).Ascending from this t.toList h
  intro ns
  induction ns with
  | nil => exact fun h => h
  | cons n ns ih => exact fun h => ih (h.insert n)

/-- A set that has all names of another one is not changed by adding them. -/
theorem Ascending.union_of_subset (h : s.Ascending) (ht : ∀ n ∈ t, n ∈ s) : s.union t = s := by
  suffices ∀ ns : List String, (∀ n ∈ ns, n ∈ s) → ns.foldl NameSet.insert s = s from
    this t.toList ht
  intro ns hns
  induction ns with
  | nil => rfl
  | cons n ns ih =>
    obtain ⟨hn, hns⟩ := List.forall_mem_cons.mp hns
    have hsame : s.insert n = s := congrArg NameSet.mk (place_of_mem h hn)
    rw [List.foldl_cons, hsame]
    exact ih hns

end NameSet

/-- The functions that are noted for a use of the variable. -/
def Variable.marks (v : Variable) : Walk.Use → NameSet
  | .read => v.readers
  | .write => v.writers

namespace Memory

variable {use : Walk.Use} {f : String} {a c k : Nat} {b : Block} {p q : Nat → Prop}
variable {gives : Nat → Nat → Prop} {done : Nat → Prop}

theorem mem_marks_shareMarks {u v : Variable} :
    f ∈ (shareMarks u v).marks use ↔ f ∈ v.marks use ∨ f ∈ u.marks use := by
  cases use with
  | read => exact NameSet.mem_union
  | write => exact NameSet.mem_union

theorem unmarked_shareMarks (u v : Variable) : (shareMarks u v).unmarked = v.unmarked := rfl

/-! ## Blocks within blocks -/

/-- The blocks form a forest: a block at every place but the first, each after its parent and with
a variable of its own. -/
structure Forest (m : Memory) : Prop where
  full : ∀ a < m.blocks.size, 0 < a → (m.block? a).isSome
  parent : m.ParentsFirst
  var : ∀ a b, m.block? a = some b → b.var < m.vars.size
  own : ∀ a a' b b', m.block? a = some b → m.block? a' = some b' → b.var = b'.var → a = a'

/-- The variable of the block at an address is one of the memory, and no other block has it. -/
def OwnsVar (m : Memory) (a : Nat) : Prop :=
  ∀ b ∈ m.block? a, b.var < m.vars.size ∧
    ∀ a' < m.blocks.size, ∀ b' ∈ m.block? a', b.var = b'.var → a = a'

instance (m : Memory) (a : Nat) : Decidable (m.OwnsVar a) :=
  inferInstanceAs (Decidable (∀ b ∈ m.block? a, _ ∧ _))

theorem forest_iff (m : Memory) : m.Forest ↔
    (∀ a < m.blocks.size, 0 < a → (m.block? a).isSome) ∧ m.ParentsFirst ∧
      ∀ a < m.blocks.size, m.OwnsVar a := by
  have hlt {a : Nat} {b : Block} (hb : m.block? a = some b) : a < m.blocks.size :=
    (Array.getElem?_eq_some_iff.mp (block?_eq_some hb)).1
  constructor
  · intro h
    exact ⟨h.full, h.parent, fun a _ b hb =>
      ⟨h.var a b hb, fun a' _ b' hb' => h.own a a' b b' hb hb'⟩⟩
  · rintro ⟨hfull, hparent, hvars⟩
    exact ⟨hfull, hparent, fun a b hb => (hvars a (hlt hb) b hb).1,
      fun a a' b b' hb hb' => (hvars a (hlt hb) b hb).2 a' (hlt hb') b' hb'⟩

instance (m : Memory) : Decidable m.Forest := decidable_of_iff _ (forest_iff m).symm

/-- The block at the second address is the one at the first, or lies in it at any depth. -/
inductive Within (m : Memory) (a : Nat) : Nat → Prop
  | itself {b : Block} (h : m.block? a = some b) : Within m a a
  | part {c : Nat} {b : Block} (h : m.block? c = some b) (hp : Within m a b.parent) : Within m a c

variable {m n : Memory}

theorem Within.trans {d : Nat} (h : m.Within a c) (h' : m.Within c d) : m.Within a d := by
  induction h' with
  | itself => exact h
  | part hb _ ih => exact .part hb ih

theorem Within.exists_block (h : m.Within a c) : ∃ b, m.block? a = some b := by
  induction h with
  | itself hb => exact ⟨_, hb⟩
  | part _ _ ih => exact ih

/-- The block at `c` gives its marks to the one at `a` when the blocks in `done` have had their
turn: it is that block, or lies within a part of it that has had its turn. -/
def Gives (m : Memory) (done : Nat → Prop) (a c : Nat) : Prop :=
  c = a ∨ ∃ d e, m.block? d = some e ∧ e.parent = a ∧ done d ∧ m.Within d c

/-- A block whose parts have all had their turn is given the marks of all blocks within it. -/
theorem gives_iff_within (hb : m.block? a = some b)
    (h : ∀ d e, m.block? d = some e → e.parent = a → done d) :
    m.Gives done a c ↔ m.Within a c := by
  constructor
  · rintro (rfl | ⟨d, e, hd, rfl, -, hc⟩)
    · exact .itself hb
    · exact (Within.part hd (.itself hb)).trans hc
  · intro hc
    induction hc with
    | itself => exact .inl rfl
    | @part c e hc _ ih =>
      rcases ih with he | ⟨d, e', hd, hparent, hdone, hwithin⟩
      · exact .inr ⟨c, e, hc, he, h c e hc he, .itself hc⟩
      · exact .inr ⟨d, e', hd, hparent, hdone, .part hc hwithin⟩

/-- One more turn. -/
theorem gives_step : m.Gives (fun d => done d ∨ d = k) a c ↔
    m.Gives done a c ∨ ∃ b, m.block? k = some b ∧ b.parent = a ∧ m.Within k c := by
  constructor
  · rintro (rfl | ⟨d, e, hd, hparent, hdone | rfl, hc⟩)
    · exact .inl (.inl rfl)
    · exact .inl (.inr ⟨d, e, hd, hparent, hdone, hc⟩)
    · exact .inr ⟨e, hd, hparent, hc⟩
  · rintro ((rfl | ⟨d, e, hd, hparent, hdone, hc⟩) | ⟨b, hb, hparent, hc⟩)
    · exact .inl rfl
    · exact .inr ⟨d, e, hd, hparent, .inl hdone, hc⟩
    · exact .inr ⟨k, b, hb, hparent, .inr rfl, hc⟩

/-! ## Turns -/

/-- One of the blocks that `source` picks has the mark. -/
def GivenMark (m : Memory) (source : Nat → Prop) (use : Walk.Use) (f : String) : Prop :=
  ∃ c d, source c ∧ m.block? c = some d ∧ f ∈ (m.varOf d.var).marks use

theorem givenMark_congr (h : ∀ c, p c ↔ q c) : m.GivenMark p use f ↔ m.GivenMark q use f :=
  exists_congr fun c => exists_congr fun _ => and_congr_left fun _ => h c

theorem givenMark_or :
    m.GivenMark (fun c => p c ∨ q c) use f ↔ m.GivenMark p use f ∨ m.GivenMark q use f := by
  simp only [GivenMark, or_and_right, exists_or]

/-- The memory `n` is `m` but for marks, and the variables of blocks have the marks that `gives`
says. -/
structure MarkedAs (m : Memory) (gives : Nat → Nat → Prop) (n : Memory) : Prop where
  rest : n = { m with vars := n.vars }
  size : n.vars.size = m.vars.size
  var : ∀ id, (n.varOf id).unmarked = (m.varOf id).unmarked
  free : ∀ id, (∀ a b, m.block? a = some b → b.var ≠ id) → n.varOf id = m.varOf id
  marks : ∀ a b, m.block? a = some b → ∀ use f,
    f ∈ (n.varOf b.var).marks use ↔ m.GivenMark (gives a) use f

/-- The blocks in `done` have had their turn. -/
abbrev Gathered (m : Memory) (done : Nat → Prop) (n : Memory) : Prop := MarkedAs m (m.Gives done) n

theorem MarkedAs.block? (h : MarkedAs m gives n) (a : Nat) : n.block? a = m.block? a := by
  rw [h.rest]
  rfl

theorem rest_setVar (h : n = { m with vars := n.vars }) (id : VarId) (f : Variable → Variable) :
    n.setVar id f = { m with vars := (n.setVar id f).vars } := by
  have hvars (vars : Array Variable) : ({ n with vars } : Memory) = { m with vars } :=
    congrArg (fun x : Memory => { x with vars }) h
  exact hvars _

/-- Before the first turn a block has its own marks. -/
theorem gathered_start : Gathered m (fun _ => False) m where
  rest := rfl
  size := rfl
  var _ := rfl
  free _ _ := rfl
  marks a b hb use f := by
    constructor
    · exact fun hf => ⟨a, b, .inl rfl, hb, hf⟩
    · rintro ⟨c, d, rfl | ⟨_, _, _, _, hdone, _⟩, hd, hf⟩
      · cases hb.symm.trans hd
        exact hf
      · exact hdone.elim

/-- Where a turn does nothing it adds nothing to what blocks are given. -/
theorem Gathered.skip (h : Gathered m done n)
    (hk : ∀ b, m.block? k = some b → m.block? b.parent = none) :
    Gathered m (fun d => done d ∨ d = k) n where
  rest := h.rest
  size := h.size
  var := h.var
  free := h.free
  marks a b hb use f := by
    rw [h.marks a b hb use f]
    refine givenMark_congr fun c => ⟨fun hc => gives_step.mpr (.inl hc), fun hc => ?_⟩
    rcases gives_step.mp hc with hc | ⟨e, he, rfl, _⟩
    · exact hc
    · rw [hk e he] at hb
      cases hb

/-- One turn: the block at `k`, whose parts have had theirs, gives its marks to its parent. -/
theorem Gathered.liftMarks (hm : m.Forest) (h : Gathered m done n)
    (hdone : ∀ d e, m.block? d = some e → e.parent = k → done d) :
    Gathered m (fun d => done d ∨ d = k) (n.liftMarks k) := by
  cases hb : m.block? k with
  | none =>
    have hsame : n.liftMarks k = n := by rw [Memory.liftMarks, h.block?, hb]
    rw [hsame]
    refine h.skip fun b hb' => ?_
    rw [hb] at hb'
    cases hb'
  | some b =>
  cases hp : m.block? b.parent with
  | none =>
    have hsame : n.liftMarks k = n := by
      rw [Memory.liftMarks, h.block?, hb]
      dsimp only
      rw [h.block?, hp]
    rw [hsame]
    refine h.skip fun b' hb' => ?_
    cases hb.symm.trans hb'
    exact hp
  | some p =>
    have hlift : n.liftMarks k = n.setVar p.var (shareMarks (n.varOf b.var)) :=
      liftMarks_of_part ((h.block? k).trans hb) ((h.block? b.parent).trans hp)
    have hlt : p.var < n.vars.size := h.size ▸ hm.var _ p hp
    rw [hlift]
    refine ⟨?_, by rw [← h.size, setVar, Array.size_modify], fun id => ?_, fun id hid => ?_,
      fun a c hc use f => ?_⟩
    · exact rest_setVar h.rest _ _
    · rw [← h.var id, varOf_setVar]
      split
      · exact unmarked_shareMarks ..
      · rfl
    · rw [varOf_setVar, if_neg fun he => hid _ p hp he.1]
      exact h.free id hid
    · rw [givenMark_congr fun _ => gives_step, givenMark_or, ← h.marks a c hc use f, varOf_setVar]
      by_cases ha : b.parent = a
      · -- the whole has the marks of the part, and these are all that lies within the part
        subst ha
        cases hp.symm.trans hc
        rw [if_pos ⟨rfl, hlt⟩, mem_marks_shareMarks, h.marks k b hb use f,
          givenMark_congr fun _ => gives_iff_within hb hdone]
        refine or_congr_right (givenMark_congr fun d => ⟨fun hd => ⟨b, hb, rfl, hd⟩, ?_⟩)
        rintro ⟨_, _, _, hd⟩
        exact hd
      · rw [if_neg fun he => ha (hm.own _ _ p c hp hc he.1)]
        refine (or_iff_left ?_).symm
        rintro ⟨_, _, ⟨b', hb', hparent, _⟩, _⟩
        cases hb.symm.trans hb'
        exact ha hparent

/-! ## Searches -/

section Searches

variable {parts : Array (Array Nat)} {depth : Nat}

/-- All parts of the block at an address, and of blocks within it, have had their turn. -/
def Searched (m : Memory) (done : Nat → Prop) (a : Nat) : Prop :=
  ∀ d e, m.block? d = some e → m.Within a e.parent → done d

theorem Searched.mono {done' : Nat → Prop} (h : m.Searched done a)
    (hdone : ∀ d, done d → done' d) : m.Searched done' a :=
  fun d e hd hwithin => hdone d (h d e hd hwithin)

/-- One search after another. -/
theorem Gathered.foldl {f : Memory → Nat → Memory} {R : (Nat → Prop) → Nat → Prop} {cs : List Nat}
    (hmono : ∀ {done done' : Nat → Prop} {c}, (∀ d, done d → done' d) → R done c → R done' c)
    (hstep : ∀ c ∈ cs, ∀ {done n}, Gathered m done n →
      ∃ done', (∀ d, done d → done' d) ∧ R done' c ∧ Gathered m done' (f n c))
    (h : Gathered m done n) : ∃ done', (∀ d, done d → done' d) ∧ (∀ c ∈ cs, R done' c) ∧
      Gathered m done' (cs.foldl f n) := by
  induction cs generalizing done n with
  | nil => exact ⟨done, fun _ hd => hd, by simp, h⟩
  | cons c cs ih =>
    obtain ⟨hc, hcs⟩ := List.forall_mem_cons.mp hstep
    obtain ⟨done₁, hle₁, hfirst, h₁⟩ := hc h
    obtain ⟨done₂, hle₂, hrest, h₂⟩ := ih hcs h₁
    exact ⟨done₂, fun d hd => hle₂ d (hle₁ d hd),
      List.forall_mem_cons.mpr ⟨hmono hle₂ hfirst, hrest⟩, h₂⟩

variable (hm : m.Forest)

include hm

/-- A block is searched when its parts have had their turn and are searched. -/
theorem searched_of_parts (h : ∀ c ∈ m.partsOf a, done c ∧ m.Searched done c) :
    m.Searched done a := by
  intro d e hd hwithin
  have hpart {c : Nat} {b : Block} (hc : m.block? c = some b) (hparent : b.parent = a) :
      c ∈ m.partsOf a :=
    mem_partsOf.mpr ⟨Nat.zero_lt_of_lt (hm.parent c b hc), b, hc, hparent⟩
  obtain ⟨b, hb⟩ := hwithin.exists_block
  have hgives : m.Gives (fun _ => True) a e.parent :=
    (gives_iff_within hb fun _ _ _ _ => trivial).mpr hwithin
  rcases hgives with he | ⟨c, b', hc, hparent, -, hwithin⟩
  · exact (h d (hpart hd he)).1
  · exact (h c (hpart hc hparent)).2 d e hd hwithin

/-- A search from a block comes to all blocks within it. -/
theorem Gathered.gather (hparts : ∀ a, (parts.getD a #[]).toList = m.partsOf a)
    (h : Gathered m done n) (ha : m.blocks.size ≤ a + depth) :
    ∃ done', (∀ d, done d → done' d) ∧ m.Searched done' a ∧
      Gathered m done' (gather parts depth n a) := by
  induction depth generalizing done n a with
  | zero =>
    refine ⟨done, fun _ hd => hd, fun d e hd hwithin => ?_, h⟩
    obtain ⟨b, hb⟩ := hwithin.exists_block
    exact absurd (Array.getElem?_eq_some_iff.mp (block?_eq_some hb)).1 (by omega)
  | succ depth ih =>
    unfold Memory.gather
    rw [hparts]
    have hpart : ∀ c ∈ m.partsOf a, ∀ {done n}, Gathered m done n →
        ∃ done', (∀ d, done d → done' d) ∧ (done' c ∧ m.Searched done' c) ∧
          Gathered m done' ((gather parts depth n c).liftMarks c) := by
      intro c hc done n h
      obtain ⟨_, b, hb, hparent⟩ := mem_partsOf.mp hc
      have hlt := hm.parent c b hb
      obtain ⟨done', hle, hsearched, h'⟩ := ih (a := c) h (by omega)
      refine ⟨fun d => done' d ∨ d = c, fun d hd => .inl (hle d hd),
        ⟨.inr rfl, hsearched.mono fun _ => .inl⟩, h'.liftMarks hm fun d e hd he => ?_⟩
      exact hsearched d e hd (he.symm ▸ Within.itself hb)
    obtain ⟨done', hle, hdone, h'⟩ := Gathered.foldl
      (R := fun done c => done c ∧ m.Searched done c)
      (fun hle hc => ⟨hle _ hc.1, hc.2.mono hle⟩) hpart h
    exact ⟨done', hle, searched_of_parts hm hdone, h'⟩

/-- Every block lies within a root. -/
theorem Forest.exists_root (hb : m.block? a = some b) : ∃ r ∈ m.partsOf 0, m.Within r a := by
  induction a using Nat.strongRecOn generalizing b with
  | ind a ih =>
    have hlt := hm.parent a b hb
    by_cases hzero : b.parent = 0
    · exact ⟨a, mem_partsOf.mpr ⟨by omega, b, hb, hzero⟩, .itself hb⟩
    · have hin := (Array.getElem?_eq_some_iff.mp (block?_eq_some hb)).1
      obtain ⟨p, hp⟩ := Option.isSome_iff_exists.mp (hm.full b.parent (by omega) (by omega))
      obtain ⟨r, hr, hwithin⟩ := ih b.parent hlt hp
      exact ⟨r, hr, .part hb hwithin⟩

end Searches

/-- The memory `n` is `m` with every block given the marks of all blocks within it. -/
abbrev Collected (m n : Memory) : Prop := MarkedAs m m.Within n

theorem collect_collected (hm : m.Forest) : ∃ n, collect m = .ok ⟨⟩ n ∧ Collected m n := by
  obtain ⟨parts, hgrouped, hparts⟩ := exists_groupParts (m := m) fun c hpos hlt => by
    obtain ⟨b, hb⟩ := Option.isSome_iff_exists.mp (hm.full c hlt hpos)
    exact ⟨b, hb, Nat.lt_trans (hm.parent c b hb) hlt⟩
  refine ⟨_, collect_eq hgrouped, ?_⟩
  rw [hparts]
  obtain ⟨done, -, hsearched, h⟩ := Gathered.foldl (R := m.Searched) (fun hle h => h.mono hle)
    (fun c _ _ _ h => h.gather hm hparts (Nat.le_add_left ..)) gathered_start
  refine ⟨h.rest, h.size, h.var, h.free, fun a b hb use f => (h.marks a b hb use f).trans ?_⟩
  refine givenMark_congr fun c => gives_iff_within hb fun d e hd he => ?_
  obtain ⟨r, hr, hwithin⟩ := hm.exists_root hb
  exact hsearched r hr d e hd (he ▸ hwithin)

/-! ## A second time -/

theorem Collected.forest (hm : m.Forest) (h : Collected m n) : n.Forest := by
  refine ⟨?_, fun a b hb => ?_, fun a b hb => ?_, fun a a' b b' hb hb' => ?_⟩
  · rw [h.rest]
    exact hm.full
  · exact hm.parent a b ((h.block? a).symm.trans hb)
  · rw [h.size]
    exact hm.var a b ((h.block? a).symm.trans hb)
  · exact hm.own a a' b b' ((h.block? a).symm.trans hb) ((h.block? a').symm.trans hb')

theorem MarkedAs.within (h : MarkedAs m gives n) : n.Within a c ↔ m.Within a c := by
  constructor
  · intro hc
    induction hc with
    | itself hb => exact .itself ((h.block? _).symm.trans hb)
    | part hb _ ih => exact .part ((h.block? _).symm.trans hb) ih
  · intro hc
    induction hc with
    | itself hb => exact .itself ((h.block? _).trans hb)
    | part hb _ ih => exact .part ((h.block? _).trans hb) ih

theorem Collected.contains (h : Collected m n) {d : Block}
    (hb : m.block? a = some b) (hd : m.block? c = some d) (hc : m.Within a c)
    (hf : f ∈ (n.varOf d.var).marks use) : f ∈ (n.varOf b.var).marks use := by
  obtain ⟨e, e', he, he', hf⟩ := (h.marks c d hd use f).mp hf
  exact (h.marks a b hb use f).mpr ⟨e, e', hc.trans he, he', hf⟩

/-- Collecting twice gives every variable the marks it has after the first time. -/
theorem Collected.again {n' : Memory} (h : Collected m n) (h' : Collected n n') (id : VarId)
    (use : Walk.Use) (f : String) :
    f ∈ (n'.varOf id).marks use ↔ f ∈ (n.varOf id).marks use := by
  by_cases hid : ∃ a b, m.block? a = some b ∧ b.var = id
  · obtain ⟨a, b, hb, rfl⟩ := hid
    rw [h'.marks a b ((h.block? a).trans hb) use f]
    constructor
    · rintro ⟨c, d, hc, hd, hf⟩
      exact h.contains hb ((h.block? c).symm.trans hd) (h.within.mp hc) hf
    · intro hf
      exact ⟨a, b, .itself ((h.block? a).trans hb), (h.block? a).trans hb, hf⟩
  · rw [h'.free id]
    intro a b hb he
    exact hid ⟨a, b, (h.block? a).symm.trans hb, he⟩

/-- The sets of marks are kept in ascending order. -/
def MarksAscend (m : Memory) : Prop :=
  ∀ id, (m.varOf id).readers.Ascending ∧ (m.varOf id).writers.Ascending

theorem MarksAscend.liftMarks (h : m.MarksAscend) (a : Nat) : (m.liftMarks a).MarksAscend := by
  unfold Memory.liftMarks
  split
  · exact h
  · split
    · exact h
    · intro id
      rw [varOf_setVar]
      split
      · exact ⟨(h id).1.union _, (h id).2.union _⟩
      · exact h id

/-- Once the marks are collected there is nothing to add. -/
theorem Collected.liftMarks (h : Collected m n) (hsets : n.MarksAscend) (a : Nat) :
    n.liftMarks a = n := by
  unfold Memory.liftMarks
  split
  · rfl
  · next b hb =>
    split
    · rfl
    · next p hp =>
      have hb := (h.block? a).symm.trans hb
      have hp := (h.block? b.parent).symm.trans hp
      have hin (use : Walk.Use) : ∀ f ∈ (n.varOf b.var).marks use, f ∈ (n.varOf p.var).marks use :=
        fun f hf => h.contains hp hb (.part hb (.itself hp)) hf
      have hread :
          (n.varOf p.var).readers.union (n.varOf b.var).readers = (n.varOf p.var).readers :=
        (hsets p.var).1.union_of_subset (hin .read)
      have hwrite :
          (n.varOf p.var).writers.union (n.varOf b.var).writers = (n.varOf p.var).writers :=
        (hsets p.var).2.union_of_subset (hin .write)
      refine setVar_eq_self ?_
      rw [shareMarks, hread, hwrite]

/-- Collecting the marks of a forest comes to an end.  It gives every block the marks of the blocks
within it and changes nothing else.  So a whole has the marks of its parts, and collecting them once
more changes nothing. -/
theorem collect_subtrees (hm : m.Forest) :
    ∃ n, collect m = .ok ⟨⟩ n ∧ Collected m n ∧
      (∀ a b p, m.block? a = some b → m.block? b.parent = some p → ∀ use,
        ∀ f ∈ (n.varOf b.var).marks use, f ∈ (n.varOf p.var).marks use) ∧
      (∃ n', collect n = .ok ⟨⟩ n' ∧ n' = { n with vars := n'.vars } ∧
        n'.vars.size = n.vars.size ∧ (∀ id, (n'.varOf id).unmarked = (n.varOf id).unmarked) ∧
        ∀ id use f, f ∈ (n'.varOf id).marks use ↔ f ∈ (n.varOf id).marks use) ∧
      (m.MarksAscend → collect n = .ok ⟨⟩ n) := by
  obtain ⟨n, hn, h⟩ := collect_collected hm
  obtain ⟨n', hn', h'⟩ := collect_collected (h.forest hm)
  refine ⟨n, hn, h, fun a b p hb hp use f hf => ?_,
    ⟨n', hn', h'.rest, h'.size, h'.var, h.again h'⟩, fun hsets => ?_⟩
  · exact h.contains hp hb (.part hb (.itself hp)) hf
  · have hascend : n.MarksAscend :=
      (collect_ends (J := MarksAscend) (fun h a => h.liftMarks a) hsets).value _ _ hn
    have hsame : n' = n := (collect_ends (J := (· = n))
      (fun he a => he ▸ h.liftMarks hascend a) rfl).value _ _ hn'
    rw [hn', hsame]

/-- A struct `s` with a struct `s.a` and a scalar `s.b` in it, and a scalar `s.a.x` in that. -/
def nested : Memory where
  vars := #[{ name := "s", type := "struct outer", kind := .record, readers := ⟨["k"]⟩ },
    { name := "s.a", type := "struct inner", kind := .record },
    { name := "s.a.x", type := "int", kind := .builtin, readers := ⟨["f"]⟩, writers := ⟨["g"]⟩ },
    { name := "s.b", type := "int", kind := .builtin, readers := ⟨["g"]⟩, writers := ⟨["f"]⟩ }]
  blocks := #[none, some { address := 1, parent := 0, var := 0 },
    some { address := 2, parent := 1, var := 1 }, some { address := 3, parent := 2, var := 2 },
    some { address := 4, parent := 1, var := 3 }]
  next := 5
  names := ⟨[("s", 1), ("s.a", 2), ("s.a.x", 3), ("s.b", 4)]⟩

theorem collect_subtrees_nested : nested.Forest ∧ nested.MarksAscend ∧
    ∃ n, collect nested = .ok ⟨⟩ n ∧ Collected nested n ∧ collect n = .ok ⟨⟩ n ∧
      (n.vars.toList.map fun v => (v.readers.toList, v.writers.toList)) =
        [(["f", "g", "k"], ["f", "g"]), (["f"], ["g"]), (["f"], ["g"]), (["g"], ["f"])] := by
  have hforest : nested.Forest := by decide
  have hsets : nested.MarksAscend := by
    have hdeclared : ∀ id < 4, (nested.varOf id).readers.Ascending ∧
        (nested.varOf id).writers.Ascending := by decide
    intro id
    by_cases hid : id < 4
    · exact hdeclared id hid
    · have hnone : nested.varOf id = default := by
        rw [varOf, Array.getElem?_eq_none (Nat.le_of_not_lt hid)]
        rfl
      rw [hnone]
      decide
  obtain ⟨n, hn, hcollected, _, _, hagain⟩ := collect_subtrees hforest
  have hmarks : (after? (collect nested)).map
      (fun n => n.vars.toList.map fun v => (v.readers.toList, v.writers.toList)) =
      some [(["f", "g", "k"], ["f", "g"]), (["f"], ["g"]), (["f"], ["g"]), (["g"], ["f"])] := by
    decide
  rw [hn] at hmarks
  exact ⟨hforest, hsets, n, hn, hcollected, hagain hsets, Option.some.inj hmarks⟩

end Memory

end Footprint
