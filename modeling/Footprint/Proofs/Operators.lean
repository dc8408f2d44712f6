import Footprint.Proofs.Call.Members
import Footprint.Proofs.StraightLine.Tokens

/-!
# Which operator a node is taken to have

The operator of a node is looked for among all its tokens, in a fixed order.
The tokens of the operands are among them, so an operator further inside can be
found in the place of the node's own one.

A tree is *sourced* if the tokens of each node are those of its children with
some of its own.  A token *stands* in a tree if a node of the tree adds it.  In
a sourced tree the tokens of a node are those that stand in it, so the own
operator of a node is found exactly if no operator that comes earlier in the
order stands in an operand.  What this does to plain assignments and to unary
operators without an effect follows.
-/

namespace Footprint

open Node

namespace Node

/-! ## Source tokens -/

/-- A list holds the parts in order, with own tokens before, between and after them. -/
inductive Woven : List String → List (List String) → List String → Prop
  | nil : Woven [] [] []
  | own {t : String} {own ts : List String} {parts : List (List String)} :
      Woven own parts ts → Woven (t :: own) parts (t :: ts)
  | part {p own ts : List String} {parts : List (List String)} :
      Woven own parts ts → Woven own (p :: parts) (p ++ ts)

/-- The node applies an operator to its children. -/
inductive Operation (op : String) : Node → Prop
  | between {i : NodeInfo} {l r : Node} {d : Option Node} :
      i.kind = .binary ∨ i.kind = .compoundAssign → i.tokens = l.tokens ++ op :: r.tokens →
        Operation op (.mk i [l, r] d)
  | before {i : NodeInfo} {c : Node} {d : Option Node} :
      i.kind = .unary → i.tokens = op :: c.tokens → Operation op (.mk i [c] d)
  | after {i : NodeInfo} {c : Node} {d : Option Node} :
      i.kind = .unary → i.tokens = c.tokens ++ [op] → Operation op (.mk i [c] d)

/-- The tokens that a node adds to those of its children. -/
inductive Adds : Node → List String → Prop
  | operation {op : String} {n : Node} : Operation op n → Adds n [op]
  | around {i : NodeInfo} {c : Node} {d : Option Node} :
      i.kind = .paren → i.tokens = "(" :: (c.tokens ++ [")"]) → Adds (.mk i [c] d) ["(", ")"]
  | other {i : NodeInfo} {cs : List Node} {d : Option Node} {own : List String} :
      i.kind ∉ [.binary, .compoundAssign, .unary, .paren] →
        Woven own (cs.map tokens) i.tokens → Adds (.mk i cs d) own

/-- The token lists of a tree are its source tokens. -/
inductive Sourced : Node → Prop
  | mk {n : Node} {own : List String} :
      Adds n own → (∀ c ∈ n.children, Sourced c) → Sourced n

/-- Some node of the tree adds the token. -/
inductive Stands (t : String) : Node → Prop
  | here {n : Node} {own : List String} : Adds n own → t ∈ own → Stands t n
  | inside {n c : Node} : c ∈ n.children → Stands t c → Stands t n

/-- The token stands in an operand of the node. -/
def Inside (t : String) (n : Node) : Prop := ∃ c ∈ n.children, Stands t c

section Source

variable {n c : Node} {op t : String} {own ts : List String} {parts : List (List String)}

theorem Woven.mem_iff (h : Woven own parts ts) : t ∈ ts ↔ t ∈ own ∨ ∃ p ∈ parts, t ∈ p := by
  induction h with
  | nil => simp
  | own _ ih => simp only [List.mem_cons, ih, or_assoc]
  | part _ ih =>
    simp only [List.mem_append, ih, List.exists_mem_cons_iff]
    exact or_left_comm

theorem Operation.woven (h : Operation op n) : Woven [op] (n.children.map tokens) n.tokens := by
  cases h with
  | @between i l r d _ ht =>
    have hw : Woven [op] [l.tokens, r.tokens] (l.tokens ++ op :: (r.tokens ++ [])) :=
      .part (.own (.part .nil))
    rw [List.append_nil, ← ht] at hw
    exact hw
  | @before i c d _ ht =>
    have hw : Woven [op] [c.tokens] (op :: (c.tokens ++ [])) := .own (.part .nil)
    rw [List.append_nil, ← ht] at hw
    exact hw
  | @after i c d _ ht =>
    have hw : Woven [op] [c.tokens] (c.tokens ++ [op]) := .part (.own .nil)
    rw [← ht] at hw
    exact hw

theorem Adds.woven (h : Adds n own) : Woven own (n.children.map tokens) n.tokens := by
  cases h with
  | operation hop => exact hop.woven
  | @around i c d _ ht =>
    have hw : Woven ["(", ")"] [c.tokens] ("(" :: (c.tokens ++ [")"])) := .own (.part (.own .nil))
    rw [← ht] at hw
    exact hw
  | other _ hw => exact hw

theorem Adds.mem_tokens_iff (h : Adds n own) :
    t ∈ n.tokens ↔ t ∈ own ∨ ∃ c ∈ n.children, t ∈ c.tokens := by
  simpa only [List.mem_map, exists_exists_and_eq_and] using h.woven.mem_iff (t := t)

/-- The tokens of a sourced tree are those that stand in it. -/
theorem Sourced.mem_tokens_iff (h : Sourced n) : t ∈ n.tokens ↔ Stands t n := by
  induction h with
  | @mk n own hadds _ ih =>
    rw [hadds.mem_tokens_iff]
    constructor
    · rintro (hown | ⟨c, hc, ht⟩)
      · exact .here hadds hown
      · exact .inside hc ((ih c hc).mp ht)
    · intro hstands
      cases hstands with
      | here hadds' hown => exact hadds.mem_tokens_iff.mp (hadds'.mem_tokens_iff.mpr (.inl hown))
      | inside hc ht => exact .inr ⟨_, hc, (ih _ hc).mpr ht⟩

theorem Sourced.child (h : Sourced n) (hc : c ∈ n.children) : Sourced c := by
  cases h with
  | mk _ hchildren => exact hchildren c hc

theorem Operation.mem_tokens_iff (h : Operation op n) (hn : Sourced n) :
    t ∈ n.tokens ↔ t = op ∨ Inside t n := by
  rw [(Adds.operation h).mem_tokens_iff, List.mem_singleton]
  refine or_congr_right (exists_congr fun c => and_congr_right fun hc => ?_)
  exact (hn.child hc).mem_tokens_iff

end Source

/-! ## The search -/

section Search

variable {i : NodeInfo} {op t : String}

/-- The place in the order in which operators are looked for.  All other tokens come last. -/
def rank (t : String) : Nat := operators.idxOf t

/-- What the search is to find for an own operator. -/
def sought (op : String) : String := if op ∈ operators then op else ""

theorem rank_lt_iff : rank t < operators.length ↔ t ∈ operators := List.idxOf_lt_length_iff

theorem rank_of_not_mem (h : t ∉ operators) : rank t = operators.length :=
  List.idxOf_eq_length h

theorem sought_of_mem (h : op ∈ operators) : sought op = op := if_pos h

theorem rank_sought : rank (sought op) = rank op := by
  unfold sought
  split
  case isTrue => rfl
  case isFalse h => rw [rank_of_not_mem h, rank_of_not_mem (by decide)]

theorem sought_eq_of_rank_eq (h : rank op = rank t) : sought op = sought t := by
  by_cases hop : op ∈ operators
  · rw [(List.idxOf_inj hop).mp h]
  · have ht : t ∉ operators := by
      rw [← rank_lt_iff, ← h, rank_lt_iff]
      exact hop
    rw [sought, sought, if_neg hop, if_neg ht]

/-- The search finds an operator among the tokens, unless there is none. -/
theorem operatorOf_cases (i : NodeInfo) :
    (operatorOf i ∈ operators ∧ operatorOf i ∈ i.tokens) ∨
    (operatorOf i = "" ∧ ∀ t ∈ i.tokens, t ∉ operators) := by
  unfold operatorOf
  cases hfind : operators.find? fun op => i.tokens.contains op with
  | none =>
    refine .inr ⟨rfl, fun t ht hop => ?_⟩
    exact List.find?_eq_none.mp hfind t hop (List.contains_iff_mem.mpr ht)
  | some found =>
    exact .inl ⟨List.mem_of_find?_eq_some hfind, List.contains_iff_mem.mp (List.find?_some hfind)⟩

theorem sought_operatorOf : sought (operatorOf i) = operatorOf i := by
  obtain ⟨hmem, _⟩ | ⟨hempty, _⟩ := operatorOf_cases i
  · exact sought_of_mem hmem
  · rw [hempty]
    decide

/-- What the search finds comes before all the other tokens. -/
theorem rank_operatorOf_le (ht : t ∈ i.tokens) : rank (operatorOf i) ≤ rank t := by
  unfold operatorOf
  cases hfind : operators.find? fun op => i.tokens.contains op with
  | none =>
    have hnone : t ∉ operators := fun hop =>
      List.find?_eq_none.mp hfind t hop (List.contains_iff_mem.mpr ht)
    rw [rank_of_not_mem hnone]
    exact List.idxOf_le_length
  | some found =>
    obtain ⟨hfound, before, rest, hsplit, hbefore⟩ := List.find?_eq_some_iff_append.mp hfind
    -- what the search passed over is not among the tokens
    have hout : ∀ t ∈ i.tokens, t ∉ before := by
      intro t ht hmem
      have hno := hbefore t hmem
      rw [List.contains_iff_mem.mpr ht] at hno
      exact absurd hno (by decide)
    rw [Option.getD_some, rank, rank, hsplit,
      List.idxOf_append_of_notMem (hout _ (List.contains_iff_mem.mp hfound)),
      List.idxOf_append_of_notMem (hout t ht), List.idxOf_cons_self]
    omega

/-- The search finds the token of least rank. -/
theorem operatorOf_eq_sought_iff (hop : op ∈ i.tokens) :
    operatorOf i = sought op ↔ ∀ t ∈ i.tokens, rank op ≤ rank t := by
  constructor
  · intro heq t ht
    rw [← rank_sought, ← heq]
    exact rank_operatorOf_le ht
  · intro hleast
    rw [← sought_operatorOf]
    refine sought_eq_of_rank_eq (le_antisymm (rank_operatorOf_le hop) ?_)
    obtain ⟨_, hmem⟩ | ⟨hempty, _⟩ := operatorOf_cases i
    · exact hleast _ hmem
    · rw [hempty]
      exact List.idxOf_le_length (l := operators)

/-- The search finds an operator of least rank among the tokens. -/
theorem operatorOf_eq (hop : op ∈ operators) (hmem : op ∈ i.tokens)
    (hleast : ∀ t ∈ i.tokens, rank op ≤ rank t) : operatorOf i = op := by
  rw [(operatorOf_eq_sought_iff hmem).mpr hleast, sought_of_mem hop]

/-- What comes before the test for equality assigns and reads. -/
theorem rank_equality_le (h : t ∉ compoundOperators) : rank "==" ≤ rank t := by
  have htake : compoundOperators = operators.take (rank "==") := by decide
  refine Nat.le_of_not_lt fun hlt => h ?_
  have hmem : t ∈ operators := rank_lt_iff.mp (Nat.lt_of_lt_of_le hlt (by decide))
  rw [htake]
  exact (List.mem_take_iff_idxOf_lt hmem).mpr hlt

end Search

end Node

/-! ## What operators do -/

namespace Walk

variable (calls : CallIndex) (s : Scope)

/-- A plain assignment: a pointer is aimed anew, and anything else is written. -/
def assignment (left right : Node) : WalkM Unit := do
  match ← assignedPointer s left with
  | some key => do
    let target ← pointerTarget s right
    repoint s key target
    walk calls s right
  | none => do
    walk calls s right
    assign calls s [.write] left

/-- An assignment that also reads its left side. -/
def update (left right : Node) : WalkM Unit := do
  assign calls s [.read, .write] left
  walk calls s right

/-- Both operands as values. -/
def values (left right : Node) : WalkM Unit := do
  walk calls s left
  walk calls s right

/-- A unary operator that does more than take its operand as a value. -/
def effect (op : String) (operand : Node) : WalkM Unit :=
  if op = "*" then readDeref s (some operand)
  else if op = "&" then
    match operand with
    | .mk j (_ :: index :: _) _ => if j.kind = .subscript then walk calls s index else return ()
    | _ => return ()
  else assign calls s [.read, .write] operand

/-- The unary operators that do more than take their operand as a value. -/
def effectOperators : List String := ["++", "--", "*", "&"]

section

variable {n l r c : Node} {op : String}

theorem walk_between (hop : n.Operation op) (hchildren : n.children = [l, r]) :
    walk calls s n =
      if operatorOf n.info = "=" then assignment calls s l r
      else if compoundOperators.contains (operatorOf n.info) then update calls s l r
      else values calls s l r := by
  cases hop with
  | between hkind _ =>
    cases hchildren
    obtain hkind | hkind := hkind <;> rw [walk, hkind] <;> rfl
  | before => cases hchildren
  | after => cases hchildren

theorem walk_unary {i : NodeInfo} {d : Option Node} (hkind : i.kind = .unary) :
    walk calls s (.mk i [c] d) =
      if operatorOf i ∈ effectOperators then effect calls s (operatorOf i) c
      else walk calls s c := by
  obtain ⟨j, ds, e⟩ := c
  have hsplit : operatorOf i ∈ effectOperators ↔ operatorOf i = "*" ∨
      operatorOf i = "&" ∨ (operatorOf i = "++" ∨ operatorOf i = "--") := by
    simp only [effectOperators, List.mem_cons, List.not_mem_nil, or_false]
    tauto
  rw [walk, hkind]
  by_cases hstar : operatorOf i = "*"
  · simp [effect, effectOperators, hstar]
  by_cases hand : operatorOf i = "&"
  · rcases ds with _ | ⟨_, _ | ⟨_, _⟩⟩ <;> simp [effect, effectOperators, hand]
  by_cases hbump : operatorOf i = "++" ∨ operatorOf i = "--"
  · simp [effect, hsplit, hstar, hand, hbump]
  · simp [hsplit, hstar, hand, hbump]

theorem walk_operand (hop : n.Operation op) (hchildren : n.children = [c]) :
    walk calls s n =
      if operatorOf n.info ∈ effectOperators then effect calls s (operatorOf n.info) c
      else walk calls s c := by
  cases hop with
  | between => cases hchildren
  | before hkind _ =>
    cases hchildren
    exact walk_unary calls s hkind
  | after hkind _ =>
    cases hchildren
    exact walk_unary calls s hkind

end

/-! ## Operators in sourced trees -/

section Sourced

variable {n l r c : Node} {op : String} (hn : n.Sourced) (hop : n.Operation op)

include hn hop

/-- The own operator is found exactly if none that comes earlier stands inside. -/
theorem operatorOf_eq_own_iff :
    operatorOf n.info = sought op ↔ ∀ o, n.Inside o → rank op ≤ rank o := by
  have hmem : ∀ t, t ∈ n.info.tokens ↔ t = op ∨ n.Inside t := fun t => hop.mem_tokens_iff hn
  rw [operatorOf_eq_sought_iff ((hmem op).mpr (.inl rfl))]
  constructor
  · exact fun hleast o ho => hleast o ((hmem o).mpr (.inr ho))
  · rintro hleast t ht
    obtain rfl | hin := (hmem t).mp ht
    · exact le_rfl
    · exact hleast t hin

omit hop in
/-- A plain assignment is walked as one if no compound operator and no test for equality stands
inside. -/
theorem walk_assignment (hop : n.Operation "=") (hchildren : n.children = [l, r])
    (hinside : ∀ o, n.Inside o → o ∉ compoundOperators ∧ o ≠ "==") :
    walk calls s n = assignment calls s l r := by
  have hfound : operatorOf n.info = "=" := by
    refine StraightLine.operatorOf_assign ((hop.mem_tokens_iff hn).mpr (.inl rfl)) fun t ht => ?_
    obtain rfl | hin := (hop.mem_tokens_iff hn).mp ht
    · decide
    · exact hinside t hin
  rw [walk_between calls s hop hchildren, if_pos hfound]

variable {o : String}

/-- An operation on two operands with a compound operator inside is walked as an update. -/
theorem walk_update_of_inside (hchildren : n.children = [l, r]) (ho : o ∈ compoundOperators)
    (hin : n.Inside o) : walk calls s n = update calls s l r := by
  have hfound : operatorOf n.info ∈ compoundOperators :=
    StraightLine.operatorOf_update ((hop.mem_tokens_iff hn).mpr (.inr hin)) ho
  have hplain : operatorOf n.info ≠ "=" := by
    intro h
    rw [h] at hfound
    exact absurd hfound (by decide)
  rw [walk_between calls s hop hchildren, if_neg hplain,
    if_pos (List.contains_iff_mem.mpr hfound)]

/-- An operation on two operands with a test for equality inside, and no compound operator, is
walked as two values. -/
theorem walk_values_of_inside (hchildren : n.children = [l, r])
    (hown : op ∉ compoundOperators)
    (hinside : ∀ o, n.Inside o → o ∉ compoundOperators) (hin : n.Inside "==") :
    walk calls s n = values calls s l r := by
  have hfound : operatorOf n.info = "==" := by
    refine operatorOf_eq (by decide) ((hop.mem_tokens_iff hn).mpr (.inr hin)) fun t ht => ?_
    refine rank_equality_le ?_
    obtain rfl | hin := (hop.mem_tokens_iff hn).mp ht
    · exact hown
    · exact hinside t hin
  rw [walk_between calls s hop hchildren, hfound, if_neg (by decide), if_neg (by decide)]

/-- The operand of a unary operator without an effect is walked as a value if no operator with an
effect stands inside, or one that comes before all of those. -/
theorem walk_operand_of_inside (hchildren : n.children = [c]) (hown : op ∉ effectOperators)
    (hinside : (∀ o, n.Inside o → o ∉ effectOperators) ∨
      ∃ o, (o = op ∨ n.Inside o) ∧ rank o < rank "++") :
    walk calls s n = walk calls s c := by
  have hfound : operatorOf n.info ∉ effectOperators := by
    intro heffect
    obtain hnone | ⟨o, ho, hrank⟩ := hinside
    · obtain ⟨_, hmem⟩ | ⟨hempty, _⟩ := operatorOf_cases n.info
      · obtain heq | hin := (hop.mem_tokens_iff hn).mp hmem
        · exact hown (heq ▸ heffect)
        · exact hnone _ hin heffect
      · rw [hempty] at heffect
        exact absurd heffect (by decide)
    · have hlate : ∀ o ∈ effectOperators, rank "++" ≤ rank o := by decide
      have hle := rank_operatorOf_le (i := n.info) ((hop.mem_tokens_iff hn).mpr ho)
      have := hlate _ heffect
      omega
  rw [walk_operand calls s hop hchildren, if_neg hfound]

/-- Otherwise the first operator with an effect that stands inside is applied to the operand. -/
theorem walk_effect_of_inside (hchildren : n.children = [c]) (ho : o ∈ effectOperators)
    (hin : n.Inside o) (hleast : ∀ t, t = op ∨ n.Inside t → rank o ≤ rank t) :
    walk calls s n = effect calls s o c := by
  have hfound : operatorOf n.info = o := by
    have hmem : ∀ o ∈ effectOperators, o ∈ operators := by decide
    refine operatorOf_eq (hmem o ho) ((hop.mem_tokens_iff hn).mpr (.inr hin)) fun t ht => ?_
    exact hleast t ((hop.mem_tokens_iff hn).mp ht)
  rw [walk_operand calls s hop hchildren, hfound, if_pos ho]

/-- In a sourced tree the operator of a node is its own one exactly if none that comes earlier in
the order of the search stands in an operand.  A plain assignment is walked as an assignment if no
compound operator and no test for equality stands in an operand, as an update if a compound
operator does, and else as two values.  The operand of a unary operator without an effect is walked
as a value, unless the first operator that stands in it is one with an effect, which is then
applied to it. -/
theorem operatorOf_own :
    (Node.operatorOf n.info = Node.sought op ↔ ∀ o, n.Inside o → Node.rank op ≤ Node.rank o) ∧
    (op = "=" → n.children = [l, r] →
      ((∀ o, n.Inside o → o ∉ Node.compoundOperators ∧ o ≠ "==") →
        walk calls s n = assignment calls s l r) ∧
      (∀ o ∈ Node.compoundOperators, n.Inside o → walk calls s n = update calls s l r) ∧
      ((∀ o, n.Inside o → o ∉ Node.compoundOperators) → n.Inside "==" →
        walk calls s n = values calls s l r)) ∧
    (op ∉ effectOperators → n.children = [c] →
      ((∀ o, n.Inside o → o ∉ effectOperators) ∨
        (∃ o, (o = op ∨ n.Inside o) ∧ Node.rank o < Node.rank "++") →
          walk calls s n = walk calls s c) ∧
      (∀ o ∈ effectOperators, n.Inside o →
        (∀ t, t = op ∨ n.Inside t → Node.rank o ≤ Node.rank t) →
          walk calls s n = effect calls s o c)) := by
  refine ⟨operatorOf_eq_own_iff hn hop, fun hplain hchildren => ?_, fun hown hchildren => ?_⟩
  · subst hplain
    exact ⟨walk_assignment calls s hn hop hchildren,
      fun o ho => walk_update_of_inside calls s hn hop hchildren ho,
      walk_values_of_inside calls s hn hop hchildren (by decide)⟩
  · exact ⟨walk_operand_of_inside calls s hn hop hchildren hown,
      fun o ho => walk_effect_of_inside calls s hn hop hchildren ho⟩

end Sourced

/-! ## An assignment that is found, and one that is not -/

theorem sourced_named (x : String) : (named x).Sourced :=
  .mk (.other (by simp) (.own .nil)) fun _ hc => absurd hc List.not_mem_nil

theorem operation_between (op : String) (l r : Node) : (between op l r).Operation op :=
  .between (.inl rfl) rfl

variable {op : String}

theorem sourced_between {l r : Node} (hl : l.Sourced) (hr : r.Sourced) :
    (between op l r).Sourced := by
  refine .mk (.operation (operation_between op l r)) fun c hc => ?_
  obtain rfl | hc := List.mem_cons.mp hc
  · exact hl
  · cases List.mem_singleton.mp hc
    exact hr

theorem sourced_following {c : Node} (hc : c.Sourced) : (following op c).Sourced := by
  refine .mk (.operation (.after rfl rfl)) fun c' hc' => ?_
  cases List.mem_singleton.mp hc'
  exact hc

/-- The tree of `x = a * b--`. -/
def productAssigned : Node :=
  between "=" (named "x") (between "*" (named "a") (following "--" (named "b")))

theorem operatorOf_own_product :
    productAssigned.Sourced ∧ productAssigned.Operation "=" ∧
      Node.operatorOf productAssigned.info = Node.sought "=" ∧
      ∀ calls s, walk calls s productAssigned =
        assignment calls s (named "x") (between "*" (named "a") (following "--" (named "b"))) := by
  have hsourced : productAssigned.Sourced := sourced_between (sourced_named "x")
    (sourced_between (sourced_named "a") (sourced_following (sourced_named "b")))
  have hop : productAssigned.Operation "=" := operation_between ..
  have hinside : ∀ o, productAssigned.Inside o →
      Node.rank "=" ≤ Node.rank o ∧ o ∉ Node.compoundOperators ∧ o ≠ "==" := by
    rintro o ⟨c, hc, ho⟩
    have htokens : ∀ c ∈ productAssigned.children, ∀ o ∈ c.tokens,
        Node.rank "=" ≤ Node.rank o ∧ o ∉ Node.compoundOperators ∧ o ≠ "==" := by decide
    exact htokens c hc o ((hsourced.child hc).mem_tokens_iff.mpr ho)
  refine ⟨hsourced, hop, ?_, fun calls s => ?_⟩
  · exact (operatorOf_own (l := named "x") (r := named "x") (c := named "x") {} default
      hsourced hop).1.mpr fun o ho => (hinside o ho).1
  · exact ((operatorOf_own (c := named "x") calls s hsourced hop).2.1 rfl rfl).1 fun o ho =>
      (hinside o ho).2

/-- The tree of `x = a == b`. -/
def comparisonAssigned : Node := between "=" (named "x") (between "==" (named "a") (named "b"))

/-- A file with three variables and a function whose body is `x = a == b`. -/
def comparisonFile : Files := fileOf
  [intVar "x", intVar "a", intVar "b", definedAs "f" [comparisonAssigned]]

/-- A test for equality on the right hides the assignment: the left side is read, and nothing is
written. -/
theorem assignment_hidden_by_equality :
    comparisonAssigned.Sourced ∧ comparisonAssigned.Operation "=" ∧
      Node.operatorOf comparisonAssigned.info = "==" ∧
      ∃ p₀ p f, Project.prepare comparisonFile (comparisonFile.absolute "p") {} = .ok ⟨⟩ p₀ ∧
        Project.analyse 0 p₀ = .ok ⟨⟩ p ∧ p.record? 0 = some f ∧
        f.reads = ⟨["a", "b", "x"]⟩ ∧ f.writes = {} := by
  refine ⟨sourced_between (sourced_named "x") (sourced_between (sourced_named "a")
    (sourced_named "b")), operation_between .., by decide, ?_⟩
  have hrun : Project.firstRun? comparisonFile (fun _ _ f => (f.reads, f.writes)) =
      some (⟨["a", "b", "x"]⟩, {}) := by decide +kernel
  obtain ⟨p₀, p, f, hprepare, hanalyse, hf, hvalues⟩ := Project.exists_of_firstRun? hrun
  simp only [Prod.mk.injEq] at hvalues
  exact ⟨p₀, p, f, hprepare, hanalyse, hf, hvalues.1, hvalues.2⟩

end Walk

end Footprint
