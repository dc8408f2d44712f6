import Footprint.Proofs.Memory.Marked
import Footprint.Proofs.StraightLine.Language

/-!
# The operator of a node

The operator of a node is searched for among its tokens, so operators further
inside an expression are candidates too.  In a straight-line body the search
finds an operator that has the effect of the right one.
-/

namespace Footprint.StraightLine

open Node

/-! ## Names -/

variable {s f x y : String} {Γ : Decls}

theorem IsName.not_mem_operators (h : IsName s) : s ∉ operators := by
  have hmark : ∀ op ∈ operators, (op.toList.any fun c => c ∈ marks) = true := by decide
  intro hs
  obtain ⟨c, hc, hm⟩ := List.any_eq_true.mp (hmark s hs)
  exact h.2 c hc (of_decide_eq_true hm)

theorem IsName.plain (h : IsName s) : ∀ c ∈ s.toList, c ≠ '.' ∧ c ≠ '[' ∧ c ≠ '-' := by
  intro c hc
  have hm := h.2 c hc
  refine ⟨?_, ?_, ?_⟩
  · rintro rfl
    exact hm (by decide)
  · rintro rfl
    exact hm (by decide)
  · rintro rfl
    exact hm (by decide)

theorem toList_ownedName (f x : String) :
    (ownedName f x).toList = '<' :: (f.toList ++ '>' :: x.toList) := by
  simp [ownedName]

theorem ownedName_ne_empty (f x : String) : ownedName f x ≠ "" := by
  intro h
  have hlist := congrArg String.toList h
  rw [toList_ownedName] at hlist
  cases hlist

theorem ownedName_plain (hf : IsName f) (hx : IsName x) :
    ∀ c ∈ (ownedName f x).toList, c ≠ '.' ∧ c ≠ '[' ∧ c ≠ '-' := by
  intro c hc
  rw [toList_ownedName, List.mem_cons, List.mem_append, List.mem_cons] at hc
  obtain rfl | hc | rfl | hc := hc
  · decide
  · exact hf.plain c hc
  · decide
  · exact hx.plain c hc

theorem ownedName_inj : ownedName f x = ownedName f y ↔ x = y := by
  constructor
  · intro h
    have hlist := congrArg String.toList h
    rw [toList_ownedName, toList_ownedName] at hlist
    have htail := List.append_cancel_left (List.cons.inj hlist).2
    exact String.toList_inj.mp (List.cons.inj htail).2
  · rintro rfl
    rfl

theorem IsName.ne_ownedName (h : IsName s) (f x : String) : s ≠ ownedName f x := by
  rintro rfl
  refine h.2 '<' ?_ (by decide)
  rw [toList_ownedName]
  exact List.mem_cons_self ..

theorem pointee_ne (x : String) : pointee x ≠ x := by
  intro h
  have hlength := congrArg String.length h
  simp [pointee, Memory.pointeeEnding] at hlength

theorem pointee_inj (h : pointee x = pointee y) : x = y := by
  have hlist := congrArg String.toList h
  simp only [pointee, String.toList_append] at hlist
  exact String.toList_inj.mp (List.append_cancel_right hlist)

/-! ## Tokens of expressions -/

/-- The token assigns nothing. -/
def Harmless (t : String) : Prop := t ∉ compoundOperators ∧ t ≠ "="

theorem harmless_of_not_mem {t : String} (h : t ∉ operators) : Harmless t := by
  have hsub : ∀ op ∈ "=" :: compoundOperators, op ∈ operators := by decide
  refine ⟨fun hc => h (hsub t (List.mem_cons_of_mem _ hc)), ?_⟩
  rintro rfl
  exact h (by decide)

theorem Place.Scoped.harmless : ∀ {l : Place}, l.Scoped Γ → ∀ t ∈ l.tokens, Harmless t
  | .var x, h, t, ht => by
      cases List.mem_singleton.mp ht
      exact harmless_of_not_mem h.1.not_mem_operators
  | .deref p, h, t, ht => by
      cases ht with
      | head => exact ⟨by decide, by decide⟩
      | tail _ ht =>
        cases List.mem_singleton.mp ht
        exact harmless_of_not_mem h.1.not_mem_operators

theorem Expr.Scoped.harmless : ∀ {e : Expr}, e.Scoped Γ → ∀ t ∈ e.tokens, Harmless t
  | .use _, h, t, ht => Place.Scoped.harmless h t ht
  | .literal _, h, t, ht => by
      cases List.mem_singleton.mp ht
      exact harmless_of_not_mem h
  | .paren e, h, t, ht => by
      rw [Expr.tokens, List.mem_cons, List.mem_append, List.mem_singleton] at ht
      obtain rfl | ht | rfl := ht
      · exact ⟨by decide, by decide⟩
      · exact Expr.Scoped.harmless (e := e) h t ht
      · exact ⟨by decide, by decide⟩
  | .binary op l r, h, t, ht => by
      obtain ⟨hop, hl, hr⟩ := h
      rw [Expr.tokens, List.mem_append, List.mem_cons] at ht
      obtain ht | rfl | ht := ht
      · exact hl.harmless t ht
      · have hbinary : ∀ op ∈ binaryOperators, op ∉ compoundOperators ∧ op ≠ "=" := by decide
        exact hbinary t hop
      · exact hr.harmless t ht

/-! ## Operators of nodes -/

section Operators

variable {i : NodeInfo} {op : String}

theorem operators_eq :
    operators = compoundOperators ++ ["==", "=", "++", "--", "*", "&"] := rfl

/-- The operator of a node is the only one among its tokens. -/
theorem operatorOf_of_only (hmem : op ∈ i.tokens) (hop : op ∈ operators)
    (hother : ∀ t ∈ i.tokens, t ∈ operators → t = op) : operatorOf i = op := by
  unfold operatorOf
  cases hfind : operators.find? fun op => i.tokens.contains op with
  | none =>
    have hnone := List.find?_eq_none.mp hfind op hop
    exact absurd (List.contains_iff_mem.mpr hmem) hnone
  | some t =>
    have htok : t ∈ i.tokens := List.contains_iff_mem.mp (List.find?_some hfind)
    exact hother t htok (List.mem_of_find?_eq_some hfind)

theorem operatorOf_harmless (h : ∀ t ∈ i.tokens, Harmless t) : Harmless (operatorOf i) := by
  unfold operatorOf
  cases hfind : operators.find? fun op => i.tokens.contains op with
  | none => exact ⟨by decide, by decide⟩
  | some t => exact h t (List.contains_iff_mem.mp (List.find?_some hfind))

/-- A plain assignment. -/
theorem operatorOf_assign (hmem : "=" ∈ i.tokens)
    (h : ∀ t ∈ i.tokens, t ∉ compoundOperators ∧ t ≠ "==") : operatorOf i = "=" := by
  have hnone : compoundOperators.find? (fun op => i.tokens.contains op) = none := by
    refine List.find?_eq_none.mpr fun op hop hc => ?_
    exact (h op (List.contains_iff_mem.mp hc)).1 hop
  have heq : ¬ i.tokens.contains "==" = true := by
    rw [List.contains_iff_mem]
    exact fun hc => (h _ hc).2 rfl
  rw [operatorOf, operators_eq, List.find?_append, hnone, Option.none_or,
    List.find?_cons_of_neg heq, List.find?_cons_of_pos (List.contains_iff_mem.mpr hmem)]
  rfl

variable {x : String}

theorem IsName.not_equality (h : IsName x) :
    x ∉ compoundOperators ∧ x ≠ "==" := by
  refine ⟨(harmless_of_not_mem h.not_mem_operators).1, ?_⟩
  rintro rfl
  exact h.not_mem_operators (by decide)

/-- An assignment to a place. -/
theorem operatorOf_assignPlace {Γ : Decls} {l : Place} {e : Expr} (hl : l.Scoped Γ)
    (he : e.Scoped Γ) (heq : "==" ∉ e.tokens) (ht : i.tokens = l.tokens ++ "=" :: e.tokens) :
    operatorOf i = "=" := by
  refine operatorOf_assign (by simp [ht]) fun t hmem => ?_
  rw [ht, List.mem_append, List.mem_cons] at hmem
  obtain hmem | rfl | hmem := hmem
  · cases l with
    | var x =>
      cases List.mem_singleton.mp hmem
      exact hl.1.not_equality
    | deref p =>
      cases hmem with
      | head => decide
      | tail _ hmem =>
        cases List.mem_singleton.mp hmem
        exact hl.1.not_equality
  · decide
  · refine ⟨(he.harmless t hmem).1, ?_⟩
    rintro rfl
    exact heq hmem

/-- An assignment to a pointer. -/
theorem operatorOf_assignPointer {p x : Var} (hp : IsName p.name) (hx : IsName x.name)
    (hmem : "=" ∈ i.tokens) (ht : ∀ t ∈ i.tokens, t ∈ ["=", "&", "*", p.name, x.name]) :
    operatorOf i = "=" := by
  refine operatorOf_assign hmem fun t hmem => ?_
  have ht := ht t hmem
  simp only [List.mem_cons, List.not_mem_nil, or_false] at ht
  obtain rfl | rfl | rfl | rfl | rfl := ht
  · decide
  · decide
  · decide
  · exact hp.not_equality
  · exact hx.not_equality

/-- An assignment that also reads. -/
theorem operatorOf_update (hmem : op ∈ i.tokens) (hop : op ∈ compoundOperators) :
    operatorOf i ∈ compoundOperators := by
  cases hfind : compoundOperators.find? fun op => i.tokens.contains op with
  | none =>
    have hnone := List.find?_eq_none.mp hfind op hop
    exact absurd (List.contains_iff_mem.mpr hmem) hnone
  | some t =>
    rw [operatorOf, operators_eq, List.find?_append, hfind]
    exact List.mem_of_find?_eq_some hfind

theorem operatorOf_name (hx : IsName x) (hop : op ∈ operators)
    (htok : ∀ t, t ∈ i.tokens ↔ t = op ∨ t = x) : operatorOf i = op := by
  refine operatorOf_of_only ((htok op).mpr (.inl rfl)) hop fun t ht hmem => ?_
  cases (htok t).mp ht with
  | inl he => exact he
  | inr he => exact absurd (he ▸ hmem) hx.not_mem_operators

end Operators

end Footprint.StraightLine
