import Footprint.Proofs.StraightLine.Tokens

/-!
# Scalars and their names

The analysis knows scalars by their full names.  What a body accesses by name is
what it accesses, with every scalar replaced by its name.  As far as writes go
that is all.  A read before any write can be told from the names only if no two
scalars have one name, and a parameter called like the block that another one is
given would share its name with the block.
-/

namespace Footprint.StraightLine

variable {α β : Type}

/-! ## Accesses under a renaming -/

/-- The access of another scalar. -/
def Access.map (g : α → β) : Access α → Access β
  | .read a => .read (g a)
  | .write a => .write (g a)

/-- The scalar of an access. -/
def Access.scalar : Access α → α
  | .read a => a
  | .write a => a

/-- The targets with every scalar replaced. -/
def Targets.map (g : α → β) (τ : Targets α) : Targets β := fun p => (τ p).map g

section Map

variable (g : α → β) (name : Var → α) (τ : Targets α)

theorem Targets.map_set (p : Var) (t : Option α) :
    (τ.set p t).map g = (τ.map g).set p (t.map g) := by
  funext q
  unfold Targets.map Targets.set
  split
  · rfl
  · rfl

theorem Place.scalar_map (l : Place) :
    l.scalar (g ∘ name) (τ.map g) = (l.scalar name τ).map g := by
  cases l with
  | var x => rfl
  | deref p => rfl

theorem Expr.reads_map (e : Expr) :
    e.reads (g ∘ name) (τ.map g) = (e.reads name τ).map g := by
  induction e with
  | use l =>
    rw [Expr.reads, Expr.reads, Place.scalar_map]
    cases l.scalar name τ with
    | none => rfl
    | some a => rfl
  | literal t => rfl
  | paren e ih => exact ih
  | binary op l r ihl ihr => rw [Expr.reads, ihl, ihr, Expr.reads, List.map_append]

theorem Stmt.accesses_map (st : Stmt) :
    st.accesses (g ∘ name) (τ.map g) = (st.accesses name τ).map (Access.map g) := by
  have hread : ∀ as : List α, (as.map g).map .read = (as.map Access.read).map (Access.map g) := by
    intro as
    rw [List.map_map, List.map_map]
    rfl
  have hwritten : ∀ l : Place,
      l.written (g ∘ name) (τ.map g) = (l.written name τ).map (Access.map g) := by
    intro l
    rw [Place.written, Place.written, Place.scalar_map]
    cases l.scalar name τ with
    | none => rfl
    | some a => rfl
  have hupdated : ∀ l : Place,
      l.updated (g ∘ name) (τ.map g) = (l.updated name τ).map (Access.map g) := by
    intro l
    rw [Place.updated, Place.updated, Place.scalar_map]
    cases l.scalar name τ with
    | none => rfl
    | some a => rfl
  cases st with
  | assign l e =>
    rw [Stmt.accesses, Stmt.accesses, Expr.reads_map, hread, hwritten, List.map_append]
  | update l op e =>
    rw [Stmt.accesses, Stmt.accesses, Expr.reads_map, hread, hupdated, List.map_append]
  | bump x op => exact hupdated (.var x)
  | point | copy | declare => rfl

theorem Stmt.targets_map (st : Stmt) :
    st.targets (g ∘ name) (τ.map g) = (st.targets name τ).map g := by
  cases st with
  | point p x => exact (Targets.map_set g τ p (some (name x))).symm
  | copy p q => exact (Targets.map_set g τ p (τ q)).symm
  | declare d => exact (Targets.map_set g τ (.own d.name) none).symm
  | assign | update | bump => rfl

theorem accessesFrom_map (sts : List Stmt) : ∀ τ : Targets α,
    accessesFrom (g ∘ name) (τ.map g) sts = (accessesFrom name τ sts).map (Access.map g) := by
  induction sts with
  | nil => exact fun _ => rfl
  | cons st sts ih =>
    intro τ
    rw [accessesFrom, Stmt.accesses_map, Stmt.targets_map, ih, accessesFrom, List.map_append]

end Map

theorem startTargets_map (g : α → β) (given : String → α) (params : List Decl) :
    (startTargets given params).map g = startTargets (g ∘ given) params := by
  have hfold : ∀ τ : Targets α, (params.foldl (Targets.enter given) τ).map g =
      params.foldl (Targets.enter (g ∘ given)) (τ.map g) := by
    induction params with
    | nil => exact fun _ => rfl
    | cons d params ih =>
      intro τ
      have hstep : (τ.enter given d).map g = (τ.map g).enter (g ∘ given) d := by
        unfold Targets.enter
        rw [Targets.map_set]
        split
        · rfl
        · rfl
      rw [List.foldl_cons, List.foldl_cons, ih, hstep]
  exact hfold fun _ => none

variable {g : α → β} {es : List (Access α)}

theorem write_mem_map {b : β} :
    .write b ∈ es.map (Access.map g) ↔ ∃ a, g a = b ∧ .write a ∈ es := by
  rw [List.mem_map]
  constructor
  · rintro ⟨e, he, hb⟩
    cases e with
    | read a => cases hb
    | write a =>
      cases hb
      exact ⟨a, rfl, he⟩
  · rintro ⟨a, rfl, ha⟩
    exact ⟨.write a, ha, rfl⟩

theorem ReadFirst.mem {a : α} (h : ReadFirst a es) : .read a ∈ es := by
  induction es with
  | nil => exact h.elim
  | cons e es ih =>
    cases e with
    | read b =>
      cases h with
      | inl h => exact h ▸ List.mem_cons_self ..
      | inr h => exact List.mem_cons_of_mem _ (ih h)
    | write b => exact List.mem_cons_of_mem _ (ih h.2)

/-- Where different scalars have different names, first reads can be told from the names. -/
theorem readFirst_map {P : α → Prop} (hg : ∀ a b, P a → P b → g a = g b → a = b)
    {b : β} (hes : ∀ e ∈ es, P e.scalar) :
    ReadFirst b (es.map (Access.map g)) ↔ ∃ a, g a = b ∧ ReadFirst a es := by
  induction es with
  | nil => simp [ReadFirst]
  | cons e es ih =>
    have ih := ih fun e' he' => hes e' (List.mem_cons_of_mem e he')
    cases e with
    | read c =>
      simp only [List.map_cons, Access.map, ReadFirst, ih]
      constructor
      · rintro (rfl | ⟨a, ha, h⟩)
        · exact ⟨c, rfl, .inl rfl⟩
        · exact ⟨a, ha, .inr h⟩
      · rintro ⟨a, ha, rfl | h⟩
        · exact .inl ha
        · exact .inr ⟨a, ha, h⟩
    | write c =>
      simp only [List.map_cons, Access.map, ReadFirst, ih]
      constructor
      · rintro ⟨hne, a, rfl, h⟩
        exact ⟨a, rfl, fun he => hne (congrArg g he), h⟩
      · rintro ⟨a, rfl, hne, h⟩
        have ha : P a := hes _ (List.mem_cons_of_mem _ h.mem)
        have hc : P c := hes _ (List.mem_cons_self ..)
        exact ⟨fun he => hne (hg c a hc ha he), a, rfl, h⟩

/-! ## Scalars with different names -/

/-- The scalar is no variable with one of the taken names, or it is what such a name is taken
by. -/
def Scalar.Apart (taken : List String) : Scalar → Prop
  | .var (.global x) => IsName x
  | .var (.own x) => x ∉ taken
  | .given p => pointee p ∈ taken

/-- Scalars that are apart have different full names. -/
theorem Scalar.full_inj {taken : List String} (f : String) :
    ∀ s t : Scalar, s.Apart taken → t.Apart taken → s.full f = t.full f → s = t
  | .var (.global _), .var (.global _), _, _, he => congrArg (Scalar.var <| .global ·) he
  | .var (.global _), .var (.own _), hs, _, he => absurd he (hs.ne_ownedName _ _)
  | .var (.global _), .given _, hs, _, he => absurd he (hs.ne_ownedName _ _)
  | .var (.own _), .var (.global _), _, ht, he => absurd he.symm (ht.ne_ownedName _ _)
  | .var (.own _), .var (.own _), _, _, he =>
      congrArg (Scalar.var <| .own ·) (ownedName_inj.mp he)
  | .var (.own _), .given _, hs, ht, he => absurd (ownedName_inj.mp he ▸ ht) hs
  | .given _, .var (.global _), _, ht, he => absurd he.symm (ht.ne_ownedName _ _)
  | .given _, .var (.own _), hs, ht, he => absurd (ownedName_inj.mp he ▸ hs) ht
  | .given _, .given _, _, _, he => congrArg Scalar.given (pointee_inj (ownedName_inj.mp he))

/-- No declared variable has a taken name, and all targets are apart. -/
structure Within (taken : List String) (Γ : Decls) (τ : Targets Scalar) : Prop where
  own : ∀ x, Γ (.own x) ≠ none → x ∉ taken
  target : ∀ p s, τ p = some s → s.Apart taken

section Within

variable {taken : List String} {Γ : Decls} {τ : Targets Scalar}

theorem Within.var (h : Within taken Γ τ) {x : Var} {r : Form} (hx : x.Is Γ r) :
    (Scalar.var x).Apart taken := by
  cases x with
  | global x => exact hx.1
  | own x => exact h.own x (by simp [hx.2])

theorem Within.place (h : Within taken Γ τ) {l : Place} (hl : l.Scoped Γ) :
    ∀ s ∈ (l.scalar Scalar.var τ).toList, s.Apart taken := by
  intro s hs
  rw [Option.mem_toList] at hs
  cases l with
  | var x =>
    cases hs
    exact h.var hl
  | deref p => exact h.target p s hs

theorem Within.expr (h : Within taken Γ τ) {e : Expr} (he : e.Scoped Γ) :
    ∀ s ∈ e.reads Scalar.var τ, s.Apart taken := by
  induction e with
  | use l => exact h.place he
  | literal t => simp [Expr.reads]
  | paren e ih => exact ih he
  | binary op l r ihl ihr =>
    intro s hs
    cases List.mem_append.mp hs with
    | inl hs => exact ihl he.2.1 s hs
    | inr hs => exact ihr he.2.2 s hs

theorem Within.stmt (h : Within taken Γ τ) {st : Stmt} (hst : st.Scoped Γ) :
    ∀ e ∈ st.accesses Scalar.var τ, e.scalar.Apart taken := by
  have hreads : ∀ {e : Expr}, e.Scoped Γ →
      ∀ a ∈ (e.reads Scalar.var τ).map Access.read, a.scalar.Apart taken := by
    intro e he a ha
    obtain ⟨s, hs, rfl⟩ := List.mem_map.mp ha
    exact h.expr he s hs
  have hwritten : ∀ {l : Place}, l.Scoped Γ →
      ∀ a ∈ l.written Scalar.var τ, a.scalar.Apart taken := by
    intro l hl a ha
    obtain ⟨s, hs, rfl⟩ := List.mem_map.mp ha
    exact h.place hl s hs
  have hupdated : ∀ {l : Place}, l.Scoped Γ →
      ∀ a ∈ l.updated Scalar.var τ, a.scalar.Apart taken := by
    intro l hl a ha
    obtain ⟨s, hs, ha⟩ := List.mem_flatMap.mp ha
    simp only [List.mem_cons, List.not_mem_nil, or_false] at ha
    obtain rfl | rfl := ha
    · exact h.place hl s hs
    · exact h.place hl s hs
  intro a ha
  cases st with
  | assign l e =>
    cases List.mem_append.mp ha with
    | inl ha => exact hreads hst.2.1 a ha
    | inr ha => exact hwritten hst.1 a ha
  | update l op e =>
    cases List.mem_append.mp ha with
    | inl ha => exact hreads hst.2.2 a ha
    | inr ha => exact hupdated hst.1 a ha
  | bump x op => exact hupdated (l := .var x) hst.1 a ha
  | point | copy | declare => cases ha

theorem Within.set (h : Within taken Γ τ) (p : Var) {t : Option Scalar}
    (ht : ∀ s, t = some s → s.Apart taken) : Within taken Γ (τ.set p t) where
  own := h.own
  target q s hs := by
    unfold Targets.set at hs
    split at hs
    · exact ht s hs
    · exact h.target q s hs

theorem Within.declare (h : Within taken Γ τ) {d : Decl} (hd : d.name ∉ taken) :
    Within taken (Γ.declare d) τ where
  own x hx := by
    unfold Decls.declare at hx
    split at hx
    · next he =>
      cases he
      exact hd
    · exact h.own x hx
  target := h.target

theorem Within.step (h : Within taken Γ τ) {st : Stmt} (hst : st.Scoped Γ)
    (hd : ∀ d ∈ locals [st], d.name ∉ taken) :
    Within taken (st.decls Γ) (st.targets Scalar.var τ) := by
  cases st with
  | point p x =>
    refine h.set p ?_
    rintro _ ⟨⟩
    exact h.var hst.2
  | copy p q => exact h.set p fun s hs => h.target q s hs
  | declare d => exact (h.declare (hd d (List.mem_cons_self ..))).set _ nofun
  | assign | update | bump => exact h

/-- Everything that scoped statements access is apart. -/
theorem Within.accesses {sts : List Stmt} : ∀ {Γ : Decls} {τ : Targets Scalar},
    Within taken Γ τ → Scoped Γ sts → (∀ d ∈ locals sts, d.name ∉ taken) →
      ∀ e ∈ accessesFrom Scalar.var τ sts, e.scalar.Apart taken := by
  induction sts with
  | nil => simp [accessesFrom]
  | cons st sts ih =>
    intro Γ τ h hs hd e he
    rw [← List.singleton_append, locals_append] at hd
    cases List.mem_append.mp he with
    | inl he => exact h.stmt hs.1 e he
    | inr he =>
      have hstep := h.step hs.1 fun d hmem => hd d (List.mem_append_left _ hmem)
      exact ih hstep hs.2 (fun d hmem => hd d (List.mem_append_right _ hmem)) e he

/-- When a function starts everything is apart, if no parameter has a taken name. -/
theorem within_start {params : List Decl} (hΓ : ∀ x, Γ (.own x) = none)
    (hapart : ∀ d ∈ params, d.name ∉ pointees params) :
    Within (pointees params) (params.foldl Decls.declare Γ)
      (startTargets Scalar.given params) := by
  have hfold : ∀ {ds : List Decl} {Γ : Decls} {τ : Targets Scalar},
      Within (pointees params) Γ τ → (∀ d ∈ ds, d ∈ params) →
      Within (pointees params) (ds.foldl Decls.declare Γ)
        (ds.foldl (Targets.enter Scalar.given) τ) := by
    intro ds
    induction ds with
    | nil => exact fun h _ => h
    | cons d ds ih =>
      intro Γ τ h hds
      have hd := hds d (List.mem_cons_self ..)
      refine ih ((h.declare (hapart d hd)).set _ ?_) fun d' hd' =>
        hds d' (List.mem_cons_of_mem d hd')
      intro s hs
      split at hs
      · next hform =>
        cases hs
        exact List.mem_filterMap.mpr ⟨d, hd, if_pos hform⟩
      · cases hs
  refine hfold ⟨?_, ?_⟩ fun _ hd => hd
  · exact fun x hx => absurd (hΓ x) hx
  · exact fun p s hs => nomatch hs

end Within

end Footprint.StraightLine
