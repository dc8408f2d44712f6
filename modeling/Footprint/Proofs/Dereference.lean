import Footprint.Proofs.Call.Pointers
import Footprint.Proofs.Call.Sequential
import Footprint.Proofs.Memory.Names
import Footprint.Proofs.StraightLine.Steps

/-!
# Reading and writing through a pointer

A value `*e` and an assignment to `*e` start with the same lookup, which gives the
key of the pointer that `e` is built on.  Then they differ.  A value takes the
target that the body has set, or else the one that the variable of the pointer
remembers.  An assignment takes the first of the two only.

So both use the same block, or both use none, unless the pointer is `Stale`: the
body has set no target, and its variable remembers a block.  Then a read is noted
and a write is lost.
-/

namespace Footprint

/-! ## Trees -/

/-- The tree is `*e`. -/
inductive Node.Derefs (e : Node) : Node → Prop
  | mk {i : NodeInfo} {d : Option Node} :
      i.kind = .unary → Node.operatorOf i = "*" → Derefs e (.mk i [e] d)

/-- The tree is `left = right`. -/
inductive Node.Assigns (left right : Node) : Node → Prop
  | mk {i : NodeInfo} {d : Option Node} :
      i.kind = .binary → Node.operatorOf i = "=" → Assigns left right (.mk i [left, right] d)

/-- The tree is `left += right`, or has another compound operator. -/
inductive Node.Updates (left right : Node) : Node → Prop
  | mk {i : NodeInfo} {d : Option Node} :
      i.kind = .compoundAssign → Node.operatorOf i ∈ Node.compoundOperators →
        Updates left right (.mk i [left, right] d)

/-! ## Blocks behind targets -/

namespace Memory

/-- The block at a target, if it is that of no pointer. -/
def plainAt? (m : Memory) (target : Option Int) : Option Nat :=
  target.bind fun a => (m.block? a.toNat).bind fun b =>
    if (m.varOf b.var).isPointer then none else some a.toNat

/-- The name of the pointer at a target, if there is one. -/
def pointerAt? (m : Memory) (target : Option Int) : Option String :=
  target.bind fun a => (m.block? a.toNat).bind fun b =>
    if (m.varOf b.var).isPointer then some (m.varOf b.var).name else none

variable {m : Memory} {a : Nat} {b : Block}

theorem plainAt?_of_block (hb : m.block? a = some b) :
    m.plainAt? (some (a : Int)) = if (m.varOf b.var).isPointer then none else some a := by
  rw [plainAt?, Option.bind_some, Int.toNat_natCast, hb, Option.bind_some]

theorem pointerAt?_of_block (hb : m.block? a = some b) :
    m.pointerAt? (some (a : Int)) =
      if (m.varOf b.var).isPointer then some (m.varOf b.var).name else none := by
  rw [pointerAt?, Option.bind_some, Int.toNat_natCast, hb, Option.bind_some]

end Memory

namespace Walk

variable {s : Scope} {e n : Node} {w w₁ : Walk}

/-! ## Noting a block -/

/-- The state with a use of the block at an address noted.  A read of what the function has written
is not noted. -/
def withUse (s : Scope) (use : Use) (a : Nat) (w : Walk) : Walk :=
  let n := (w.memory.nameAt? a).getD ""
  if use = .read ∧ n ∈ w.written then w
  else
    { w with
      memory := w.memory.withUse use s.name a
      functions := w.functions.modify s.root (·.note use n)
      written := (Fate.noted a).written use n w.written }

/-- The state with uses of a block noted, if there is a block. -/
def withUses (s : Scope) (uses : List Use) : Option Nat → Walk → Walk
  | none, w => w
  | some a, w => uses.foldl (fun w use => w.withUse s use a) w

/-- The address is that of a block whose variable is no pointer. -/
def Plain (a : Nat) (w : Walk) : Prop :=
  ∃ b, w.memory.block? a = some b ∧ (w.memory.varOf b.var).isPointer = false

variable {a : Nat}

theorem mark_plain (hl : Memory.Linked none w.memory) (ha : w.Plain a) (use : Use) :
    mark s use a w = .ok ⟨⟩ (w.withUse s use a) := by
  obtain ⟨b, hb, hpointer⟩ := ha
  have hname : (w.memory.nameAt? a).getD "" = (w.memory.varOf b.var).name := by
    rw [Memory.nameAt?, hb]
    rfl
  unfold withUse
  rw [hname]
  dsimp only
  split
  · next hread => exact mark_shared hl hb rfl (.inr hread)
  · next hread => exact mark_eq hl hb rfl hpointer fun huse hmem => hread ⟨huse, hmem⟩

theorem linked_withUse (hl : Memory.Linked none w.memory) (use : Use) (a : Nat) :
    Memory.Linked none (w.withUse s use a).memory := by
  unfold withUse
  dsimp only
  split
  · exact hl
  · exact hl.withUse use s.name a

theorem Plain.withUse {c : Nat} (h : w.Plain a) (use : Use) : (w.withUse s use c).Plain a := by
  obtain ⟨b, hb, hpointer⟩ := h
  unfold Walk.withUse
  dsimp only
  split
  · exact ⟨b, hb, hpointer⟩
  · refine ⟨b, ?_, ?_⟩
    · rw [Memory.block?_withUse]
      exact hb
    · exact (Memory.varOf_withUse (fun _ => rfl) _ _ _ _ _ : Variable.isPointer _ = _).trans
        hpointer

theorem markEach_plain : ∀ {uses : List Use} {w : Walk},
    Memory.Linked none w.memory → w.Plain a →
      (uses.forM fun use => mark s use a) w = .ok ⟨⟩ (w.withUses s uses (some a))
  | [], _, _, _ => rfl
  | use :: _, _, hl, ha =>
      (bind_of_ok (mark_plain hl ha use)).trans
        (markEach_plain (linked_withUse hl use a) (ha.withUse use))

/-! ## The two lookups -/

/-- The key of the pointer that an expression is built on. -/
def keyOf (s : Scope) (e : Node) : WalkM (Option String) := do
  pointerKey? s (← pointerName s e)

/-- The target that the body has set for the pointer that an expression is built on. -/
def setTarget? (s : Scope) (e : Node) : WalkM (Option Int) := do
  match ← keyOf s e with
  | some key => currentTarget key
  | none => return none

/-- The pointer that the expression is built on has no target that was set in the body, and its
variable remembers a block that is no pointer. -/
def Stale (s : Scope) (e : Node) (w : Walk) : Prop :=
  ∃ key w₁ t w₂, keyOf s e w = .ok (some key) w₁ ∧ (w₁.pointers.get? key).join = none ∧
    rememberedTarget s key w₁ = .ok t w₂ ∧ w₂.memory.plainAt? t ≠ none

theorem derefTarget_eq (s : Scope) (e : Node) :
    derefTarget s e = keyOf s e >>= fun key =>
      match key with
      | some key => targetOf s key
      | none => pure none :=
  (bind_assoc (pointerName s e) (pointerKey? s) _).symm

/-- The result is the key of a pointer, if there is one, and keys are not empty. -/
abbrev FindsKey? (s : Scope) (w₀ : Walk) (m₀ : Memory) (x : WalkM (Option String)) : Prop :=
  MindsIn s w₀ m₀ (fun found _ => ∀ key, found = some key → key ≠ "") x

section Keys

variable {w₀ : Walk} {m₀ : Memory}

theorem findsKey_none : FindsKey? s w₀ m₀ (pure none) := .pure fun _ _ _ h => by cases h

theorem findsKey_pointerNamed {name : String} (hne : name ≠ "") :
    FindsKey? s w₀ m₀ (pointerNamed s name) := by
  refine finds_pointerNamed
    (A := fun m a => m.Owns a ∧ m.nameAt? a.toNat ≠ some "") ?_ ?_ fun h _ => h
  · constructor
    intro w hw _
    have hlook : MindsAt _ _ w _ (addressOf s name) := (minds_addressOf name).ends w hw (.refl _)
    have hnamed : Ends (addressOf s name) w
        (fun found w' => ∀ c : Nat, found = some c → w'.memory.nameAt? c ≠ some "")
        fun _ _ => True := by
      refine Ends.zoom ((Memory.resolve_named s.types name hw.aimed.memory.linked).mono ?_ ?_)
      · rintro found m' ⟨_, hfound⟩ c hc hempty
        obtain ⟨n, hn, rfl | hsteps⟩ := hfound c hc
        · exact hne (Option.some.inj (hn.symm.trans hempty))
        · cases hn.symm.trans hempty
          exact absurd hsteps (by unfold HasSteps; decide)
      · exact fun _ _ _ => trivial
    refine ⟨fun found w' h => ?_, hlook.fault⟩
    obtain ⟨hw', hg, howns⟩ := hlook.value found w' h
    exact ⟨hw', hg, fun c hc => ⟨howns c hc, hnamed.value found w' h c hc⟩⟩
  · intro m a ha
    refine (minds_step (aims_onMemory (Memory.minds_variableAt ha.1)) fun _ _ hg h =>
      .variableAt (ha.1.grows hg) h).mono fun _ m' hg hv id v hf _ hname => ?_
    obtain ⟨b, hb⟩ := ha.1.2
    have hsame := hg.name _ _ (Memory.nameAt?_of_block hb)
    refine ha.2 ((Memory.nameAt?_of_block hb).trans (hsame.symm.trans ?_))
    exact (hv id v hf).1.trans (congrArg some hname)

theorem findsKey_pointerKey (name : String) : FindsKey? s w₀ m₀ (pointerKey s name) :=
  finds_pointerKey findsKey_pointerNamed (fun _ hne _ => hne) fun h _ => h

theorem findsKey_keyOf (e : Node) : FindsKey? s w₀ m₀ (keyOf s e) := by
  refine .bind (minds_pointerName e) fun name _ _ _ => ?_
  cases name with
  | none => exact findsKey_none
  | some name => exact findsKey_pointerKey name

end Keys

/-! ## What a value and an assignment use -/

section Uses

variable {calls : CallIndex}

/-- The uses of a target are noted, if there is a target. -/
def noteTarget (s : Scope) (uses : List Use) : Option Int → WalkM PUnit
  | some a => uses.forM fun use => mark s use a
  | none => pure ⟨⟩

variable {t : Option Int} {key : String}

theorem noteTarget_eq (hw : w.Aimed) (ht : w.memory.OwnsTarget t) (uses : List Use) :
    noteTarget s uses t w = .ok ⟨⟩ (w.withUses s uses (w.memory.plainAt? t)) := by
  cases t with
  | none => rfl
  | some a =>
    obtain ⟨a, rfl, b, hb⟩ := (ht a rfl).exists_nat
    have hl := hw.memory.linked
    rw [Memory.plainAt?_of_block hb, noteTarget]
    split
    · next hpointer =>
      -- uses of a pointer are not noted
      induction uses with
      | nil => rfl
      | cons use uses ih => exact (bind_of_ok (mark_shared hl hb rfl (.inl hpointer))).trans ih
    · next hpointer => exact markEach_plain hl ⟨b, hb, Bool.not_eq_true _ ▸ hpointer⟩

theorem walk_derefs (hn : e.Derefs n) :
    walk calls s n = derefTarget s e >>= noteTarget s [.read] := by
  cases hn with
  | mk hkind hop =>
    rw [StraightLine.walk_deref hkind hop]
    unfold readDeref
    refine bind_congr fun t => ?_
    cases t with
    | none => rfl
    | some a => exact (bind_pure _).symm

theorem assign_derefs (hn : e.Derefs n) (uses : List Use) :
    assign calls s uses n = setTarget? s e >>= noteTarget s uses := by
  cases hn with
  | @mk i d hkind hop =>
    have hassign : assign calls s uses (.mk i [e] d) = assignDeref s uses (some e) := by
      unfold assign
      simp [hkind, hop]
    rw [hassign]
    unfold assignDeref setTarget? keyOf
    rw [bind_assoc, bind_assoc]
    refine bind_congr fun name => bind_congr fun key => ?_
    cases key with
    | none => rfl
    | some key => exact bind_congr fun t => by cases t <;> rfl

/-- An assignment to a dereference is one to the pointer behind it, if there is a pointer. -/
theorem assignedPointer_derefs (hn : e.Derefs n) :
    assignedPointer s n = pointerBehind s (some e) := by
  cases hn with
  | @mk i d hkind hop =>
    have hleft : pointerBehindLeft s (.mk i [e] d) = pointerBehind s (some e) :=
      if_pos (by simp [Node.kind, Node.info, hkind, hop])
    have hname : accessName s (.mk i [e] d) = pure none := by
      unfold accessName
      simp [hkind, hop]
    unfold assignedPointer
    rw [hleft, hname]
    conv => rhs; rw [← bind_pure (pointerBehind s (some e))]
    refine bind_congr fun key => ?_
    cases key with
    | none => rfl
    | some key => rfl

theorem walk_assigns (hn : e.Derefs n) {c k : Node} (hk : n.Assigns c k) :
    walk calls s k = (do
      match ← pointerBehind s (some e) with
      | some key => do
        let target ← pointerTarget s c
        repoint s key target
        walk calls s c
      | none => do
        walk calls s c
        assign calls s [.write] n) := by
  cases hk with
  | mk hkind hop =>
    rw [← assignedPointer_derefs hn]
    exact StraightLine.walk_assign hkind hop

theorem walk_updates {c k : Node} (hk : n.Updates c k) :
    walk calls s k = (do
      assign calls s [.read, .write] n
      walk calls s c) := by
  cases hk with
  | mk hkind hop => exact StraightLine.walk_update hkind hop

theorem pointerBehind_eq (hw : w.Aimed) (h : derefTarget s e w = .ok t w₁) :
    pointerBehind s (some e) w = .ok (w₁.memory.pointerAt? t) w₁ := by
  obtain ⟨hw₁, _, ht⟩ := ((minds_derefTarget e).ends w ⟨hw, .refl⟩ (.refl _)).value t w₁ h
  refine (bind_of_ok h).trans ?_
  cases t with
  | none => rfl
  | some a =>
    obtain ⟨a, rfl, b, hb⟩ := (ht a rfl).exists_nat
    refine (bind_of_ok (onMemory_ok (Memory.variableAt_ok hw₁.aimed.memory.linked hb))).trans ?_
    rw [Memory.pointerAt?_of_block hb]
    rfl

theorem stale_iff {w₂ : Walk} (hkey : keyOf s e w = .ok (some key) w₂) : Stale s e w ↔
    (w₂.pointers.get? key).join = none ∧ ∃ t w₃, rememberedTarget s key w₂ = .ok t w₃ ∧
    w₃.memory.plainAt? t ≠ none := by
  constructor
  · rintro ⟨key', w', t, w₃, hkey', hnone, hremembered, hplain⟩
    cases hkey.symm.trans hkey'
    exact ⟨hnone, t, w₃, hremembered, hplain⟩
  · rintro ⟨hnone, t, w₃, hremembered, hplain⟩
    exact ⟨key, w₂, t, w₃, hkey, hnone, hremembered, hplain⟩

/-- The two lookups give the same block or none, unless the pointer is stale. -/
theorem setTarget?_eq (hw : w.Aimed) (h : derefTarget s e w = .ok t w₁) :
    ∃ t' w₂, setTarget? s e w = .ok t' w₂ ∧ w₂.Aimed ∧ w₂.memory.OwnsTarget t' ∧
      (w₂.memory.plainAt? t' = w₁.memory.plainAt? t ↔ ¬ Stale s e w) ∧
      (Stale s e w → w₂.memory.plainAt? t' = none) := by
  rw [derefTarget_eq] at h
  obtain ⟨key, w₂, hkey, h⟩ := exists_of_bind h
  obtain ⟨hw₂, _, hfull⟩ := ((findsKey_keyOf e).ends w ⟨hw, .refl⟩ (.refl _)).value key w₂ hkey
  cases key with
  | none =>
    cases h
    have hfresh : ¬ Stale s e w := by
      rintro ⟨key, _, _, _, hkey', _⟩
      cases hkey.symm.trans hkey'
    exact ⟨none, w₁, (bind_of_ok hkey).trans rfl, hw₂.aimed, Memory.ownsTarget_none,
      iff_of_true rfl hfresh, fun hstale => absurd hstale hfresh⟩
  | some key =>
    refine ⟨(w₂.pointers.get? key).join, w₂, (bind_of_ok hkey).trans rfl, hw₂.aimed,
      hw₂.aimed.pointers.get? key, ?_⟩
    rw [stale_iff hkey]
    replace h := (StraightLine.targetOf_eq (hfull key rfl) w₂).symm.trans h
    cases hset : (w₂.pointers.get? key).join with
    | some a =>
      rw [hset] at h
      cases h
      simp
    | none =>
      rw [hset] at h
      -- the assignment finds nothing, the value what the variable remembers
      have hread : (∃ t w₃, rememberedTarget s key w₂ = .ok t w₃ ∧ w₃.memory.plainAt? t ≠ none) ↔
          w₁.memory.plainAt? t ≠ none := by
        constructor
        · rintro ⟨t', w₃, hremembered, hplain⟩
          cases h.symm.trans hremembered
          exact hplain
        · exact fun hplain => ⟨t, w₁, h, hplain⟩
      rw [hread, Memory.plainAt?, Option.bind_none]
      exact ⟨by simp [eq_comm], fun _ => rfl⟩

/-- From every state, a value `*e` reads the block behind the target that is set or else
remembered, and an assignment to `*e` uses the block behind the target that is set.  They are the
same block, or there is none, exactly if the pointer is not stale. -/
theorem deref_same_block_iff (calls : CallIndex) (hw : w.Aimed) (hn : e.Derefs n)
    {t : Option Int} (hread : derefTarget s e w = .ok t w₁) :
    walk calls s n w = .ok ⟨⟩ (w₁.withUses s [.read] (w₁.memory.plainAt? t)) ∧
    ∃ t' w₂, setTarget? s e w = .ok t' w₂ ∧
      (∀ uses, assign calls s uses n w = .ok ⟨⟩ (w₂.withUses s uses (w₂.memory.plainAt? t'))) ∧
      (∀ c k, n.Updates c k → walk calls s k w =
        walk calls s c (w₂.withUses s [.read, .write] (w₂.memory.plainAt? t'))) ∧
      (∀ c k, n.Assigns c k → walk calls s k w = (match w₁.memory.pointerAt? t with
        | some key => do
          let target ← pointerTarget s c
          repoint s key target
          walk calls s c
        | none => do
          walk calls s c
          assign calls s [.write] n) w₁) ∧
      (w₂.memory.plainAt? t' = w₁.memory.plainAt? t ↔ ¬ Stale s e w) ∧
      (Stale s e w → w₂.memory.plainAt? t' = none) := by
  obtain ⟨hw₁, _, ht⟩ := ((minds_derefTarget e).ends w ⟨hw, .refl⟩ (.refl _)).value t w₁ hread
  obtain ⟨t', w₂, hset, hw₂, ht', hsame⟩ := setTarget?_eq hw hread
  have hassign (uses : List Use) :
      assign calls s uses n w = .ok ⟨⟩ (w₂.withUses s uses (w₂.memory.plainAt? t')) := by
    rw [assign_derefs hn]
    exact (bind_of_ok hset).trans (noteTarget_eq hw₂ ht' uses)
  refine ⟨?_, t', w₂, hset, hassign, fun c k hk => ?_, fun c k hk => ?_, hsame⟩
  · rw [walk_derefs hn]
    exact (bind_of_ok hread).trans (noteTarget_eq hw₁.aimed ht [.read])
  · rw [walk_updates hk]
    exact bind_of_ok (hassign [.read, .write])
  · rw [walk_assigns hn hk]
    exact bind_of_ok (pointerBehind_eq hw hread)

end Uses

/-! ## A pointer that another function has set -/

/-- The tree of `*p`. -/
def behindP : Node := leading "*" (named "p")

/-- The tree of `*p = 1`. -/
def setBehindP : Node := between "=" behindP one

theorem derefs_behindP : (named "p").Derefs behindP := .mk rfl (by decide)

/-- A file with `int x, y` and a pointer `p`, a function `f` that makes `p` point to `x`, and a
function `g` that reads `*p` to `y` and then writes `*p`. -/
def staleUse : Files := fileOf
  [intVar "x", intVar "y", intPointer "p", definedAs "f" [aim],
    definedAs "g" [between "=" (named "y") behindP, setBehindP]]

/-- The scope of `g` in a project. -/
def scopeOfG (p : Project) : Scope := ⟨p.types, 1, "g"⟩

/-- The project once `f` is analysed. -/
def staleRun? : Option Project :=
  (after? (Project.prepare staleUse (staleUse.absolute "p") {})).bind fun p =>
    after? (Project.analyse 0 p)

theorem aimed_staleRun {p : Project} (h : staleRun? = some p) : (entering p.analysis).Aimed := by
  obtain ⟨p₀, hprepare, hanalyse⟩ := ok_of_bind h
  have hreached : Project.Reached staleUse "p" p :=
    .analysed (.read hprepare) (ok_of_after? hanalyse)
  have haimed := hreached.aimed.analysis
  exact ⟨haimed.memory, haimed.pointers, haimed.functions⟩

theorem deref_same_block_iff_aim :
    ∃ p w w₁, staleRun? = some p ∧
      walk p.analysis.index (scopeOfG p) aim (entering p.analysis) = .ok ⟨⟩ w ∧ w.Aimed ∧
      (named "p").Derefs behindP ∧
      derefTarget (scopeOfG p) (named "p") w = .ok (some 1) w₁ ∧
      w₁.memory.plainAt? (some 1) = some 1 ∧
      walk p.analysis.index (scopeOfG p) behindP w =
        .ok ⟨⟩ (w₁.withUses (scopeOfG p) [.read] (w₁.memory.plainAt? (some 1))) ∧
      ∃ t' w₂, setTarget? (scopeOfG p) (named "p") w = .ok t' w₂ ∧
        (∀ uses, assign p.analysis.index (scopeOfG p) uses behindP w =
          .ok ⟨⟩ (w₂.withUses (scopeOfG p) uses (w₂.memory.plainAt? t'))) ∧
        (w₂.memory.plainAt? t' = w₁.memory.plainAt? (some 1) ↔
          ¬ Stale (scopeOfG p) (named "p") w) := by
  have hrun : (staleRun?.bind fun p =>
      (after? (walk p.analysis.index (scopeOfG p) aim (entering p.analysis))).map fun w =>
        (value? (derefTarget (scopeOfG p) (named "p") w),
          value? ((derefTarget (scopeOfG p) (named "p") >>= fun _ => get) w)
            |>.map fun w₁ => w₁.memory.plainAt? (some 1))) =
      some (some (some 1), some (some 1)) := by decide +kernel
  obtain ⟨p, hp, hr⟩ := Option.bind_eq_some_iff.mp hrun
  obtain ⟨w, haim, hvalues⟩ := ok_of_map hr
  simp only [Prod.mk.injEq] at hvalues
  obtain ⟨htarget, hplain⟩ := hvalues
  obtain ⟨w₁, hread⟩ := exists_of_value? htarget
  have hplain : w₁.memory.plainAt? (some 1) = some 1 := by
    rw [bind_of_ok hread] at hplain
    exact Option.some.inj hplain
  have hw : w.Aimed := (((minds_walk p.analysis.index aim).ends (entering p.analysis)
    ⟨aimed_staleRun hp, .refl⟩ (.refl _)).value _ _ haim).1.aimed
  obtain ⟨hwalk, t', w₂, hset, hassign, _, _, hsame, _⟩ :=
    deref_same_block_iff p.analysis.index hw derefs_behindP hread
  exact ⟨p, w, w₁, hp, haim, hw, derefs_behindP, hread, hplain, hwalk, t', w₂, hset,
    hassign, hsame⟩

/-- A read through a pointer that another function has set is noted, and a write is not: `g` reads
`x` and does not write it. -/
theorem stale_write_lost :
    ∃ p₀ p p' g, Project.prepare staleUse (staleUse.absolute "p") {} = .ok ⟨⟩ p₀ ∧
      Project.analyse 0 p₀ = .ok ⟨⟩ p ∧ Project.analyse 1 p = .ok ⟨⟩ p' ∧
      value? (derefTarget (scopeOfG p) (named "p") (entering p.analysis)) = some (some 1) ∧
      value? (setTarget? (scopeOfG p) (named "p") (entering p.analysis)) = some none ∧
      p.analysis.memory.address? "x" = some 1 ∧
      p'.record? 1 = some g ∧ "x" ∈ g.reads ∧ "x" ∉ g.writes := by
  have hrun : ((after? (Project.prepare staleUse (staleUse.absolute "p") {})).bind fun p₀ =>
      (after? (Project.analyse 0 p₀)).bind fun p =>
        (after? (Project.analyse 1 p)).bind fun p' =>
          (p'.record? 1).map fun g =>
            (value? (derefTarget (scopeOfG p) (named "p") (entering p.analysis)),
              value? (setTarget? (scopeOfG p) (named "p") (entering p.analysis)),
              p.analysis.memory.address? "x", g.reads, g.writes)) =
      some (some (some 1), some none, some 1, ⟨["x"]⟩, ⟨["y"]⟩) := by decide +kernel
  obtain ⟨p₀, hprepare, hr⟩ := ok_of_bind hrun
  obtain ⟨p, hfirst, hr⟩ := ok_of_bind hr
  obtain ⟨p', hsecond, hr⟩ := ok_of_bind hr
  obtain ⟨g, hg, hvalues⟩ := Option.map_eq_some_iff.mp hr
  simp only [Prod.mk.injEq] at hvalues
  obtain ⟨hread, hset, haddress, hreads, hwrites⟩ := hvalues
  refine ⟨p₀, p, p', g, hprepare, hfirst, hsecond, hread, hset,
    haddress, hg, ?_, ?_⟩
  · rw [hreads]
    decide
  · rw [hwrites]
    decide

end Walk

end Footprint
