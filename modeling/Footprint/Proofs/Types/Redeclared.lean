import Footprint.Project.Collect
import Footprint.Proofs.Outcome

/-!
# Declarations of one tag

A struct may be declared many times: by its definition, by declarations without
members, and behind typedefs.  Each of them enters a record under the name of
the struct and puts out the one that was there.  Only a declaration at a place
that was met before is left out.

So the table ends with what the last declaration of a tag gives (`declareAll`
over the `taken` declarations).  The members of a definition stay if no
declaration of the tag without members is taken after it, and are lost if one
is.
-/

namespace Footprint

/-- The node declares a struct, a union or a typedef. -/
def Node.DeclaresType (n : Node) : Prop :=
  n.kind = .structDecl ∨ n.kind = .unionDecl ∨ n.kind = .typedefDecl

instance (n : Node) : Decidable n.DeclaresType := inferInstanceAs (Decidable (_ ∨ _ ∨ _))

namespace TypeTable

variable {T : TypeTable} {n : Node} {t : String}

/-- The declaration of a struct or union that a type declaration enters: the node itself, or the
declaration behind a typedef. -/
def entered? (n : Node) : Option Node :=
  if n.kind = .typedefDecl then n.declaration.filter declaresStruct else some n

/-- The declaration enters a struct or union under the name. -/
def Enters (t : String) (n : Node) : Prop := ∃ d, entered? n = some d ∧ structName d = t

/-- Where it enters a struct or union under the name, it does so without members. -/
def IsForward (t : String) (n : Node) : Prop :=
  ∀ d, entered? n = some d → structName d = t → fieldsOf d = []

/-! ## One declaration -/

/-- What a declaration gives is entered under its name. -/
theorem declare_enters {d : Node} (h : entered? n = some d) :
    ∃ r, (T.declare n).1 = some r ∧ r.name = structName d ∧
      r.memberNames = (fieldsOf d).map Node.spelling ∧
      r.memberTypes.length ≤ (fieldsOf d).length ∧
      (T.declare n).2.structs = T.structs.set (structName d) r := by
  have hlength (T' : TypeTable) : (T'.memberTypesOf d).length ≤ (fieldsOf d).length :=
    Nat.le_trans (List.length_filterMap_le ..) (Nat.le_of_eq (List.length_map ..))
  unfold entered? at h
  unfold declare
  split at h
  · next hk =>
    rw [if_pos hk, h]
    refine ⟨_, rfl, rfl, rfl, hlength _, ?_⟩
    unfold nameStruct
    dsimp only
    split <;> rfl
  · next hk =>
    cases h
    rw [if_neg hk]
    exact ⟨_, rfl, rfl, rfl, hlength _, rfl⟩

theorem declare_structs_of_none (h : entered? n = none) : (T.declare n).2.structs = T.structs := by
  unfold entered? at h
  split at h
  · next hk =>
    unfold declare
    rw [if_pos hk, h]
    dsimp only
    split <;> rfl
  · cases h

theorem get?_declare_of_not (h : ¬ Enters t n) :
    (T.declare n).2.structs.get? t = T.structs.get? t := by
  cases hd : entered? n with
  | none => rw [declare_structs_of_none hd]
  | some d =>
    obtain ⟨r, _, _, _, _, hset⟩ := declare_enters (T := T) hd
    rw [hset, Table.get?_set, if_neg fun he => h ⟨d, hd, he⟩]

/-! ## Many declarations -/

/-- The table after some declarations. -/
def declareAll (T : TypeTable) (ns : List Node) : TypeTable :=
  ns.foldl (fun T n => (T.declare n).2) T

variable {ns : List Node}

theorem get?_declareAll_of_not : ∀ {T : TypeTable}, (∀ n ∈ ns, ¬ Enters t n) →
    (T.declareAll ns).structs.get? t = T.structs.get? t := by
  induction ns with
  | nil => exact fun _ => rfl
  | cons n ns ih =>
    intro T h
    obtain ⟨hn, hns⟩ := List.forall_mem_cons.mp h
    exact (ih hns).trans (get?_declare_of_not hn)

/-- After a declaration without members there are none, until there is another definition. -/
theorem get?_declareAll_forward : ∀ {T : TypeTable}, (∀ n ∈ ns, IsForward t n) →
    (∃ n ∈ ns, Enters t n) →
    ∃ r, (T.declareAll ns).structs.get? t = some r ∧ r.memberNames = [] ∧ r.memberTypes = [] := by
  induction ns with
  | nil =>
    rintro _ _ ⟨_, hn, _⟩
    cases hn
  | cons n ns ih =>
    intro T hforward henters
    obtain ⟨hn, hns⟩ := List.forall_mem_cons.mp hforward
    by_cases hlater : ∃ n ∈ ns, Enters t n
    · exact ih hns hlater
    · have hnone : ∀ n ∈ ns, ¬ Enters t n := fun k hk h => hlater ⟨k, hk, h⟩
      obtain ⟨k, hk, hent⟩ := henters
      obtain rfl : k = n := (List.mem_cons.mp hk).resolve_right fun hk => hnone k hk hent
      obtain ⟨d, hd, rfl⟩ := hent
      obtain ⟨r, _, _, hnames, htypes, hset⟩ := declare_enters (T := T) hd
      rw [hn d hd rfl] at hnames htypes
      refine ⟨r, ?_, hnames, List.eq_nil_of_length_eq_zero (Nat.le_zero.mp htypes)⟩
      rw [declareAll, List.foldl_cons]
      exact (get?_declareAll_of_not hnone).trans (by rw [hset, Table.get?_set, if_pos rfl])

end TypeTable

namespace Project

open TypeTable (entered? Enters IsForward structName fieldsOf)

variable {fs : Files} {project : String}

/-- The place that a type declaration is known by. -/
def placeOf (fs : Files) (n : Node) : String × Option Int × Option Int :=
  (fs.absolute (n.info.file.getD ""), n.info.line, n.info.column)

/-- Those of some type declarations that are taken: they stand in the project, at a place that was
not met before. -/
def taken (fs : Files) (project : String) (seen : List (String × Option Int × Option Int)) :
    List Node → List Node
  | [] => []
  | n :: ns =>
    if inProject fs project n && !seen.contains (placeOf fs n) then
      n :: taken fs project (placeOf fs n :: seen) ns
    else taken fs project seen ns

theorem addDeclaration_type {n : Node} (hn : n.DeclaresType) (p : Project) :
    addDeclaration fs project n p =
      if inProject fs project n && !p.seenTypes.contains (placeOf fs n) then
        .ok ⟨⟩ { p with
          seenTypes := placeOf fs n :: p.seenTypes, types := (p.types.declare n).2 }
      else .ok ⟨⟩ p := by
  have hkind : addDeclaration fs project n =
      if !inProject fs project n then pure ⟨⟩ else addType fs n := by
    unfold addDeclaration
    rcases hn with hk | hk | hk <;> rw [hk]
  rw [hkind]
  cases inProject fs project n with
  | false => rfl
  | true =>
    show addType fs n p = _
    rw [Bool.true_and]
    refine (bind_of_ok rfl).trans ?_
    show (if p.seenTypes.contains (placeOf fs n) then (pure ⟨⟩ : ProjectM Unit) else _) p = _
    cases p.seenTypes.contains (placeOf fs n) with
    | false => rfl
    | true => rfl

/-- The declarations that are taken are entered, one after the other. -/
theorem forM_addDeclaration_types {ns : List Node} (hns : ∀ n ∈ ns, n.DeclaresType) (p : Project) :
    ns.forM (addDeclaration fs project) p = .ok ⟨⟩ { p with
      seenTypes := ((taken fs project p.seenTypes ns).map (placeOf fs)).reverse ++ p.seenTypes
      types := p.types.declareAll (taken fs project p.seenTypes ns) } := by
  induction ns generalizing p with
  | nil => rfl
  | cons n ns ih =>
    obtain ⟨hn, hns⟩ := List.forall_mem_cons.mp hns
    have hstep : addDeclaration fs project n p = _ := addDeclaration_type hn p
    rw [taken]
    split at hstep
    · next htaken =>
      rw [if_pos htaken]
      refine (bind_of_ok hstep).trans ((ih hns _).trans ?_)
      simp [TypeTable.declareAll]
    · next htaken =>
      rw [if_neg htaken]
      exact (bind_of_ok hstep).trans (ih hns p)

/-- After the last declaration of a tag with members was taken, the table ends with these members
just if the tag is not declared again.  If it is, nothing is left of them. -/
theorem members_kept_iff (fs : Files) (project : String) (p : Project) (ns : List Node)
    (hns : ∀ n ∈ ns, n.DeclaresType) :
    ∃ p', ns.forM (addDeclaration fs project) p = .ok ⟨⟩ p' ∧
      ∀ earlier n later d, taken fs project p.seenTypes ns = earlier ++ n :: later →
        entered? n = some d → fieldsOf d ≠ [] → (∀ k ∈ later, IsForward (structName d) k) →
        ∃ r, ((p.types.declareAll earlier).declare n).1 = some r ∧
          r.memberNames = (fieldsOf d).map Node.spelling ∧
          (p'.types.structs.get? (structName d) = some r ↔ ∀ k ∈ later, ¬ Enters (structName d) k) ∧
          ((∃ k ∈ later, Enters (structName d) k) →
            ∃ r', p'.types.structs.get? (structName d) = some r' ∧
              r'.memberNames = [] ∧ r'.memberTypes = []) := by
  refine ⟨_, forM_addDeclaration_types hns p, ?_⟩
  intro earlier n later d htaken hd hfields hlater
  obtain ⟨r, hr, _, hnames, _, hset⟩ :=
    TypeTable.declare_enters (T := p.types.declareAll earlier) hd
  have htable : p.types.declareAll (taken fs project p.seenTypes ns) =
      ((p.types.declareAll earlier).declare n).2.declareAll later := by
    rw [htaken, TypeTable.declareAll, List.foldl_append]
    rfl
  have hlost := TypeTable.get?_declareAll_forward
    (T := ((p.types.declareAll earlier).declare n).2) hlater
  refine ⟨r, hr, hnames, ?_, ?_⟩
  · rw [htable]
    constructor
    · intro hkept k hk henters
      obtain ⟨r', hr', hnone, _⟩ := hlost ⟨k, hk, henters⟩
      cases hkept.symm.trans hr'
      rw [hnames, List.map_eq_nil_iff] at hnone
      exact hfields hnone
    · intro hnot
      rw [TypeTable.get?_declareAll_of_not hnot, hset, Table.get?_set, if_pos rfl]
  · rw [htable]
    exact hlost

/-- A declaration of `struct A` on a line of a file. -/
def tagAt (line : Int) (fields : List Node) : Node :=
  .mk { kind := .structDecl, spelling := "A", file := some "/w/p/a.c", line := some line } fields
    none

/-- The member `int x`. -/
def memberX : Node :=
  .mk { kind := .fieldDecl, spelling := "x", type := some ⟨"int", .other, .other⟩ } [] none

/-- The declaration before the definition does no harm, nor does it when it is met again. -/
theorem members_kept_iff_before :
    ∃ p', [tagAt 1 [], tagAt 2 [memberX], tagAt 1 []].forM
        (addDeclaration { here := "/w" } "/w/p") ({} : Project) = .ok ⟨⟩ p' ∧
      ∃ r, p'.types.structs.get? "struct A" = some r ∧ r.memberNames = ["x"] := by
  have htypes : ∀ n ∈ [tagAt 1 [], tagAt 2 [memberX], tagAt 1 []], n.DeclaresType := by decide
  obtain ⟨p', hrun, hkept⟩ := members_kept_iff { here := "/w" } "/w/p" {} _ htypes
  have htaken : taken { here := "/w" } "/w/p" []
      [tagAt 1 [], tagAt 2 [memberX], tagAt 1 []] = [tagAt 1 []] ++ tagAt 2 [memberX] :: [] := by
    simp only [taken]
    rw [if_pos (by decide +kernel), if_pos (by decide +kernel), if_neg (by decide +kernel)]
    rfl
  obtain ⟨r, _, hnames, hiff, _⟩ := hkept _ _ _ _ htaken rfl
    (show [memberX] ≠ [] from List.cons_ne_nil _ _) fun _ hk => absurd hk List.not_mem_nil
  exact ⟨p', hrun, r, hiff.mpr fun _ hk => absurd hk List.not_mem_nil, hnames⟩

/-- A declaration without members after the definition puts its members out. -/
theorem members_lost_after :
    ∃ p', [tagAt 1 [memberX], tagAt 2 []].forM
        (addDeclaration { here := "/w" } "/w/p") ({} : Project) = .ok ⟨⟩ p' ∧
      p'.types.structs.get? "struct A" = some { name := "struct A" } := by
  refine ⟨_, forM_addDeclaration_types (by decide) _, ?_⟩
  decide +kernel

end Project

end Footprint
