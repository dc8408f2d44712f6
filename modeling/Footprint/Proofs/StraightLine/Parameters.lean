import Mathlib.Data.List.Forall2
import Footprint.Proofs.StraightLine.Statements

/-!
# Entering a function

The parameters of a function get their blocks one after the other.  A pointer
gets a second block to point to.  The name of that block is free if no parameter
is called like it, since then only the parameters before could have taken it.

Where the pointers point when the body starts is read off a table of the blocks
that they were given.
-/

namespace Footprint

open Memory

/-! ## Tables of pointers -/

namespace Analysis

variable {noted : Table String Nat} {k : String}

theorem startPointers_set (ps : Table String (Option Int)) (a : Nat) (h : noted.get? k = none) :
    startPointers ps (noted.set k a) = (startPointers ps noted).set k (some (Int.ofNat a)) := by
  unfold startPointers Table.set
  rw [Table.put_of_lookup a h, List.foldl_append]
  rfl

theorem get?_startPointers : ∀ {ps : Table String (Option Int)}, (startPointers ps noted).get? k =
    none → noted.get? k = none ∧ ps.get? k = none := by
  obtain ⟨es⟩ := noted
  induction es with
  | nil =>
    intro ps h
    exact ⟨rfl, h⟩
  | cons e es ih =>
    intro ps h
    obtain ⟨hes, hps⟩ := ih h
    rw [Table.get?_set] at hps
    split at hps
    · cases hps
    · next he =>
      refine ⟨?_, hps⟩
      rw [← hes]
      exact if_neg he

end Analysis

namespace StraightLine

open Memory (Linked Marked Adds)

/-! ## Blocks to point to -/

section Pointee

variable {f : String} {pointees : List String} {Γ : Decls} {τ : Targets String} {m m' : Memory}
variable {ps : Table String (Option Int)} {id : VarId}

/-- What a pointer parameter points to has got its block. -/
theorem Sim.addPointee (h : Sim f pointees Γ τ m ps) {x : String} (hx : Γ (.own x) = none)
    (hnot : x ∉ pointees) (hadds : Adds m (ownedName f x) id m')
    (hnew : ∀ n a j, m.At n a j → j ≠ id) (hvar : (m'.varOf id).isPointer = false) :
    Sim f (pointees ++ [x]) Γ τ m' ps := by
  have habsent := h.absent hx hnot
  have hold : ∀ {n a j}, m.At n a j → m'.At n a j ∧ m'.varOf j = m.varOf j :=
    hadds.at_old h.linked habsent hnew
  have hname : ∀ {y}, IsName y → m'.names.get? y = m.names.get? y := by
    intro y hy
    rw [hadds.names, Table.get?_set, if_neg (hy.ne_ownedName f x).symm]
  constructor
  case linked => exact hadds.linked
  case bound =>
    intro y r hy
    obtain ⟨a, j, hat, hr⟩ := h.bound y r hy
    exact ⟨a, j, (hold hat).1, (hold hat).2.symm ▸ hr⟩
  case named => exact h.named
  case unowned =>
    intro y r hy
    exact (hname (h.named y r hy)).trans (h.unowned y r hy)
  case unknown =>
    intro y hy hΓ
    exact (hname hy).trans (h.unknown y hy hΓ)
  case apart => exact h.apart
  case owned =>
    intro y a j hat hΓ
    by_cases he : y = x
    · subst he
      obtain ⟨rfl, rfl⟩ := hat.unique hadds.at_new
      exact ⟨List.mem_append_right _ (List.mem_singleton.mpr rfl), hvar⟩
    · have hat := (hadds.at_iff h.linked fun hc => he (ownedName_inj.mp hc)).mp hat
      obtain ⟨hmem, hp⟩ := h.owned y a j hat hΓ
      exact ⟨List.mem_append_left _ hmem, (hold hat).2.symm ▸ hp⟩
  case aims =>
    intro p hp
    exact (h.aims p hp).keep hold
  case remembered =>
    intro p a j hp hat hnone
    obtain ⟨b, k, hb, _⟩ := h.bound p .pointer hp
    obtain ⟨rfl, rfl⟩ := hat.unique (hold hb).1
    rw [(hold hb).2]
    exact h.remembered p a j hp hb hnone
  case keys =>
    intro k t hk
    obtain ⟨a, j, hat, hp⟩ := h.keys k t hk
    exact ⟨a, j, (hold hat).1, (hold hat).2.symm ▸ hp⟩

/-- What a pointer parameter is taken to point to gets its block. -/
theorem allocatePointee_adds {T : TypeTable} (h : Linked none m) (v : Variable)
    (ht : T.isBasic (T.decode (pointeeVariable T v).type) = true) :
    ∃ m', allocatePointee T v m = .ok m.next m' ∧
      Adds m (pointeeVariable T v).name m.vars.size m' ∧
      m'.varOf m.vars.size = pointeeVariable T v := by
  generalize hv : pointeeVariable T v = pv at ht
  have hparts : pv.parts = {} := by
    rw [← hv]
    rfl
  have hvar : ({ m with vars := m.vars.push pv } : Memory).varOf m.vars.size = pv := by
    rw [varOf_push, if_pos rfl]
  have hid : m.vars.size < ({ m with vars := m.vars.push pv } : Memory).vars.size := by simp
  have hadds := adds_withBlock (h.declare hparts) hid (by rw [hvar])
  refine ⟨_, ?_, hadds.of_declare, hvar⟩
  unfold allocatePointee
  rw [hv]
  refine (bind_of_ok rfl).trans ?_
  exact allocate_basic ht _ _ _

end Pointee

/-! ## Parameters -/

/-- The variable of a parameter that has no block yet and has not been used. -/
structure Param (f : String) (m : Memory) (d : Decl) (id : VarId) : Prop where
  lt : id < m.vars.size
  name : (m.varOf id).name = ownedName f d.name
  type : (m.varOf id).type = d.type
  form : (m.varOf id).form = d.form
  address : (m.varOf id).address = 0
  single : (m.varOf id).usedAsArray = false
  target : (m.varOf id).target = none

instance (f : String) (m : Memory) (d : Decl) (id : VarId) : Decidable (Param f m d id) :=
  decidable_of_iff
    (id < m.vars.size ∧ (m.varOf id).name = ownedName f d.name ∧ (m.varOf id).type = d.type ∧
      (m.varOf id).form = d.form ∧ (m.varOf id).address = 0 ∧ (m.varOf id).usedAsArray = false ∧
      (m.varOf id).target = none)
    ⟨fun ⟨h₁, h₂, h₃, h₄, h₅, h₆, h₇⟩ => ⟨h₁, h₂, h₃, h₄, h₅, h₆, h₇⟩,
      fun h => ⟨h.lt, h.name, h.type, h.form, h.address, h.single, h.target⟩⟩

/-- The type that a pointer type points to. -/
def pointedType (T : TypeTable) (type : String) : String :=
  let base := TypeName.pointee (T.decode type)
  if base.isEmpty then "void" else base

/-- What a pointer parameter points to takes one block, and is no pointer. -/
def Decl.PointsToScalar (T : TypeTable) (d : Decl) : Prop :=
  T.isBasic (T.decode (pointedType T d.type)) = true ∧ T.isPointer (pointedType T d.type) = false

section Param

variable {T : TypeTable} {f : String} {pointees : List String} {Γ : Decls} {τ : Targets String}
variable {m m' : Memory} {d : Decl} {id : VarId}

theorem Param.pointeeVariable (h : Param f m d id) (a : Nat) :
    let v := Memory.pointeeVariable T { m.varOf id with address := a }
    v.name = ownedName f (pointee d.name) ∧ v.type = pointedType T d.type ∧
      v.isPointer = T.isPointer (pointedType T d.type) := by
  simp [Memory.pointeeVariable, pointedType, h.name, h.type, h.single, ownedName, pointee,
    String.append_assoc]

theorem Param.of_unmarked (h : Param f m d id) (hlt : id < m'.vars.size)
    (hvar : (m'.varOf id).unmarked = (m.varOf id).unmarked) : Param f m' d id where
  lt := hlt
  name := (Variable.eq_of_unmarked hvar fun _ => rfl).trans h.name
  type := (Variable.eq_of_unmarked hvar fun _ => rfl).trans h.type
  form := (Variable.eq_of_unmarked hvar fun _ => rfl).trans h.form
  address := (Variable.eq_of_unmarked hvar fun _ => rfl).trans h.address
  single := (Variable.eq_of_unmarked hvar fun _ => rfl).trans h.single
  target := (Variable.eq_of_unmarked hvar fun _ => rfl).trans h.target

theorem Param.adds (h : Param f m d id) {name : String} {j : VarId} (hadds : Adds m name j m')
    (hne : id ≠ j) : Param f m' d id :=
  h.of_unmarked (Nat.lt_of_lt_of_le h.lt hadds.size) (by rw [hadds.var id h.lt hne])

theorem Param.marked (h : Param f m d id) (hm : Marked m m') : Param f m' d id :=
  h.of_unmarked (hm.size ▸ h.lt) (hm.var id)

theorem Targets.set_set (τ : Targets String) (p : Var) (t t' : Option String) :
    (τ.set p t).set p t' = τ.set p t' := by
  funext q
  unfold Targets.set
  split
  · rfl
  · rfl

theorem pointee?_of_pointer (h : d.form = .pointer) : d.pointee? = some (pointee d.name) :=
  if_pos h

theorem pointee?_of_not_pointer (h : d.form ≠ .pointer) : d.pointee? = none := if_neg h

variable {ps : Table String (Option Int)} {noted : Table String Nat}

/-- A pointer that has its block gets a block to point to. -/
theorem Sim.allocatePointee (h : Sim f pointees Γ τ m ps) (hd : Γ (.own d.name) = some .pointer)
    {a : Nat} (hat : m.At (ownedName f d.name) a id) (htarget : (m.varOf id).target = none)
    {v : Variable} (hv : v.name = ownedName f d.name)
    (hname : (pointeeVariable T v).name = ownedName f (pointee d.name))
    (hbasic : T.isBasic (T.decode (pointeeVariable T v).type) = true)
    (hscalar : (pointeeVariable T v).isPointer = false)
    (hnot : pointee d.name ∉ pointees) (hfree : Γ (.own (pointee d.name)) = none) :
    Runs (do
      let a ← allocatePointee T v
      addRef a v.name
      return noted.set v.name a) m fun noted' m' =>
        ∃ a, noted' = noted.set (ownedName f d.name) a ∧
          Sim f (pointees ++ [pointee d.name]) Γ
            (τ.set (.own d.name) (some (ownedName f (pointee d.name)))) m'
            (ps.set (ownedName f d.name) (some (Int.ofNat a))) ∧
          (∀ d' id', Param f m d' id' → Param f m' d' id') ∧
          ∀ K : Spared f, K.holds m → K.holds m' := by
  obtain ⟨m₁, hrun, hadds, hvar⟩ := allocatePointee_adds (T := T) h.linked v hbasic
  rw [hname] at hadds
  have hnew : ∀ n a j, m.At n a j → j ≠ m.vars.size :=
    fun n a j hat => Nat.ne_of_lt (hat.lt_size h.linked)
  have hsim := h.addPointee hfree hnot hadds hnew (by rw [hvar]; exact hscalar)
  obtain ⟨b, hb, _⟩ := hadds.at_new.exists_block
  obtain ⟨hat₁, hvar₁⟩ := hadds.at_old h.linked (h.absent hfree hnot) hnew hat
  refine .bind_ok hrun (Runs.bind (addRef_marked hadds.linked hb v.name) ?_)
  intro _ m₂ hm
  have haims : Aims m₂ (some (Int.ofNat m.next)) (some (ownedName f (pointee d.name))) := by
    refine ⟨m.next, _, rfl, hadds.at_new.marked hm, ?_⟩
    exact (Variable.eq_of_unmarked (hm.var _) fun _ => rfl).trans (hvar ▸ hscalar)
  have hnone : (m₂.varOf id).target = none :=
    (Variable.eq_of_unmarked (hm.var _) fun _ => rfl).trans (hvar₁ ▸ htarget)
  rw [hv]
  refine Ends.pure ⟨m.next, rfl, (hsim.marked hm).enter hd (hat₁.marked hm) haims hnone, ?_, ?_⟩
  · intro d' id' hp'
    exact (hp'.adds hadds (Nat.ne_of_lt hp'.lt)).marked hm
  · intro K hkept
    exact K.marked (K.adds hkept h.linked hadds fun hlt => absurd hlt (Nat.lt_irrefl _)) hm

/-- A parameter gets its block, and a pointer a block to point to. -/
theorem Sim.allocateParam
    (h : Sim f pointees Γ τ m (Analysis.startPointers ps noted)) (hp : Param f m d id)
    (hd : d.Fresh Γ) (hplaced : d.Placed T pointees)
    (hpointee : d.form = .pointer → d.PointsToScalar T ∧ pointee d.name ∉ pointees ∧
      Γ (.own (pointee d.name)) = none) :
    Runs (allocateParam T noted id) m
      fun noted' m' => Sim f (pointees ++ d.pointee?.toList) (Γ.declare d)
        (τ.enter (fun p => ownedName f (pointee p)) d) m' (Analysis.startPointers ps noted') ∧
        (∀ d' id', d'.name ≠ d.name → Param f m d' id' → Param f m' d' id') ∧
        ∀ K : Spared f, K.holds m → K.holds m' := by
  obtain ⟨m₁, hrun, hadds, hvar⟩ :=
    allocateRoot_adds (T := T) h.linked hp.lt (by rw [hp.type]; exact hplaced.2)
  rw [hp.name] at hadds
  have habsent := h.absent hd.2.1 hplaced.1
  have hnew : ∀ n a j, m.At n a j → j ≠ id := by
    rintro n a j hat rfl
    rw [← hp.name, hat.name h.linked, hat.address] at habsent
    cases habsent
  have htarget : (m₁.varOf id).target = none := by
    rw [hvar]
    exact hp.target
  have hsim := h.declare hd hplaced.1 hadds hnew (by rw [hvar, ← hp.form]; rfl) htarget
  have hother : ∀ d' id', d'.name ≠ d.name → Param f m d' id' → Param f m₁ d' id' := by
    intro d' id' hne hp'
    refine hp'.adds hadds ?_
    rintro rfl
    exact hne (ownedName_inj.mp (hp'.name.symm.trans hp.name))
  have hkept : ∀ K : Spared f, K.holds m → K.holds m₁ :=
    fun K hm => K.adds hm h.linked hadds fun _ => hp.name
  refine .bind_ok hrun (.bind_ok rfl ?_)
  dsimp only
  rw [hvar]
  unfold Targets.enter
  by_cases hform : d.form = .pointer
  · obtain ⟨hscalar, hnot, hfree⟩ := hpointee hform
    have hpointer : (m.varOf id).isPointer = true := form_pointer.mp (hp.form.trans hform)
    obtain ⟨hname, htype, hflag⟩ := hp.pointeeVariable (T := T) m.next
    have hdeclared : Γ.declare d (.own d.name) = some .pointer := by
      rw [Decls.declare, if_pos rfl, hform]
    have hfree₁ : Γ.declare d (.own (pointee d.name)) = none := by
      rw [Decls.declare, if_neg fun hc => pointee_ne d.name (Var.own.inj hc)]
      exact hfree
    have hkey := (Analysis.get?_startPointers (h.no_key habsent)).1
    rw [if_pos hpointer, if_pos hform, pointee?_of_pointer hform]
    refine Runs.mono (hsim.allocatePointee hdeclared hadds.at_new htarget hp.name hname
      (by rw [htype]; exact hscalar.1) (by rw [hflag]; exact hscalar.2) hnot hfree₁) ?_
    rintro _ m₂ ⟨a, rfl, hsim₂, hother₂, hkept₂⟩
    rw [Analysis.startPointers_set ps a hkey]
    rw [Targets.set_set] at hsim₂
    exact ⟨hsim₂, fun d' id' hne hp' => hother₂ d' id' (hother d' id' hne hp'),
      fun K hm => hkept₂ K (hkept K hm)⟩
  · have hpointer : ¬ (m.varOf id).isPointer = true := by
      rw [← form_pointer, hp.form]
      exact hform
    rw [if_neg hpointer, if_neg hform, pointee?_of_not_pointer hform]
    exact Ends.pure ⟨by simpa using hsim, hother, hkept⟩

/-! ## All parameters -/

/-- The blocks to point to belong to parameters, and no parameter has a name like theirs. -/
structure Entered (all pointees : List String) (Γ : Decls) : Prop where
  mem : ∀ x ∈ pointees, x ∈ all
  source : ∀ x ∈ pointees, ∃ y, x = pointee y ∧ Γ (.own y) ≠ none
  apart : ∀ y, Γ (.own y) ≠ none → y ∉ all

theorem Decls.declare_ne_none {y : String} (h : Γ (.own y) ≠ none) :
    Γ.declare d (.own y) ≠ none := by
  unfold Decls.declare
  split
  · simp
  · exact h

variable {all : List String}

theorem Entered.declare (h : Entered all pointees Γ) (hd : d.name ∉ all)
    (hall : ∀ x ∈ d.pointee?, x ∈ all) :
    Entered all (pointees ++ d.pointee?.toList) (Γ.declare d) where
  mem x hx := by
    rw [List.mem_append, Option.mem_toList] at hx
    cases hx with
    | inl hx => exact h.mem x hx
    | inr hx => exact hall x hx
  source x hx := by
    rw [List.mem_append, Option.mem_toList] at hx
    cases hx with
    | inl hx =>
      obtain ⟨y, rfl, hy⟩ := h.source x hx
      exact ⟨y, rfl, Decls.declare_ne_none hy⟩
    | inr hx =>
      unfold Decl.pointee? at hx
      split at hx
      · cases hx
        refine ⟨d.name, rfl, ?_⟩
        rw [Decls.declare, if_pos rfl]
        simp
      · cases hx
  apart y hy := by
    unfold Decls.declare at hy
    split at hy
    · next he =>
      cases he
      exact hd
    · exact h.apart y hy

theorem freshEach_mem {ds : List Decl} : ∀ {Γ : Decls}, FreshEach Γ ds → ∀ d ∈ ds,
    Γ (.own d.name) = none := by
  induction ds with
  | nil => simp
  | cons d₀ ds ih =>
    intro Γ h d hd
    cases hd with
    | head => exact h.1.2.1
    | tail _ hd =>
      have hnone := ih h.2 d hd
      by_contra hc
      exact Decls.declare_ne_none hc hnone

/-- All parameters get their blocks. -/
theorem Sim.allocateFunctionParams {params : List Decl} {ids : List VarId}
    (hparams : List.Forall₂ (Param f m) params ids) :
    ∀ {Γ : Decls} {τ : Targets String} {pointees : List String} {noted : Table String Nat},
      FreshEach Γ params → (∀ d ∈ params, d.Placed T all) →
      (∀ d ∈ params, ∀ x ∈ d.pointee?, x ∈ all ∧ d.PointsToScalar T) → Entered all pointees Γ →
      Sim f pointees Γ τ m (Analysis.startPointers ps noted) →
      Runs (allocateFunctionParams T noted ids) m
        fun noted' m' => ∃ pointees', (∀ x ∈ pointees', x ∈ all) ∧
          Sim f pointees' (params.foldl Decls.declare Γ)
          (params.foldl (Targets.enter fun p => ownedName f (pointee p)) τ) m'
          (Analysis.startPointers ps noted') ∧ ∀ K : Spared f, K.holds m → K.holds m' := by
  induction params generalizing ids m with
  | nil =>
    intro Γ τ pointees noted _ _ _ hentered h
    cases hparams
    exact Ends.pure ⟨pointees, hentered.mem, h, fun _ hm => hm⟩
  | cons d params ih =>
    intro Γ τ pointees noted hfresh hplaced hpointees hentered h
    cases hparams with
    | @cons _ id _ ids hp hrest =>
      have hd := hplaced d (List.mem_cons_self ..)
      have hsame : m.setVar id (asArray T) = m := by
        refine setVar_eq_self ?_
        unfold asArray
        rw [hp.single, Bool.and_false]
        rfl
      have hstep := h.allocateParam (T := T) hp hfresh.1
        ⟨fun hc => hd.1 (hentered.mem _ hc), hd.2⟩ (by
          intro hform
          have hx := hpointees d (List.mem_cons_self ..) _ (pointee?_of_pointer hform)
          refine ⟨hx.2, ?_, ?_⟩
          · intro hc
            obtain ⟨y, he, hy⟩ := hentered.source _ hc
            exact hy (pointee_inj he ▸ hfresh.1.2.1)
          · by_contra hc
            exact hentered.apart _ hc hx.1)
      have hchange : change id (asArray T) m = .ok ⟨⟩ m :=
        congrArg (EStateM.Result.ok PUnit.unit) hsame
      unfold allocateFunctionParams
      refine .bind_ok rfl ?_
      rw [if_neg (by simp [hp.address])]
      refine .bind_ok hchange (Runs.bind hstep ?_)
      rintro noted' m' ⟨hsim, hkeep, hkept⟩
      have hne : ∀ d' ∈ params, d'.name ≠ d.name := by
        intro d' hd' he
        have hnone := freshEach_mem hfresh.2 d' hd'
        rw [he, Decls.declare, if_pos rfl] at hnone
        cases hnone
      have hrest' : List.Forall₂ (Param f m') params ids :=
        ((List.forall₂_and_left _ _).mpr ⟨hne, hrest⟩).imp fun d' id' hp' =>
          hkeep d' id' hp'.1 hp'.2
      refine Runs.mono (ih hrest' hfresh.2 (fun d' hd' => hplaced d' (List.mem_cons_of_mem d hd'))
        (fun d' hd' => hpointees d' (List.mem_cons_of_mem d hd'))
        (hentered.declare hd.1 fun x hx => (hpointees d (List.mem_cons_self ..) x hx).1) hsim) ?_
      rintro noted'' m'' ⟨pointees', hmem, hsim', hkept'⟩
      exact ⟨pointees', hmem, hsim', fun K hm => hkept' K (hkept K hm)⟩

end Param

end StraightLine

end Footprint
