import Footprint.Project.CallGraph
import Footprint.Proofs.PostOrder
import Footprint.Analysis.Body

/-!
# The calls of a definition are edges of the call graph

The call graph is read off the definitions by a walk of its own.  Here it is
compared with the walk of a body.  Every call that stands below a definition
is an edge of the graph, and the walk of a body looks at the call index only
under the names of such calls.
-/

namespace Footprint

open CallGraph

/-- The first node stands below the second, at any depth. -/
inductive Node.Below : Node → Node → Prop where
  | child {m n : Node} : m ∈ n.children → Below m n
  | deeper {k m n : Node} : Below k m → m ∈ n.children → Below k n

namespace CallGraph

theorem callsIn_subset {m : Node} : ∀ {ns : List Node}, m ∈ ns → callsIn m ⊆ callsInEach ns
  | n :: ns, hm => by
      unfold callsInEach
      cases List.mem_cons.mp hm with
      | inl he => subst he; exact List.subset_append_left _ _
      | inr hm => exact List.subset_append_of_subset_right _ (callsIn_subset hm)

theorem callsInEach_subset (n : Node) : callsInEach n.children ⊆ callsIn n := by
  obtain ⟨i, cs, d⟩ := n
  unfold callsIn
  dsimp only
  split
  · exact List.subset_cons_self _ _
  · exact List.Subset.refl _

variable {n : Node} {x f : String} {g : CallGraph}

theorem calleeName_mem_callsIn (hk : n.kind = .call)
    (hn : Node.calleeName n.info ≠ "") : Node.calleeName n.info ∈ callsIn n := by
  obtain ⟨i, cs, d⟩ := n
  have hk : i.kind = .call := hk
  have hn : Node.calleeName i ≠ "" := hn
  simp [callsIn, Node.info, hk, hn]

/-- A call with a name is found wherever it stands below a node. -/
theorem mem_callsInEach_of_below {m : Node} (h : m.Below n) (hk : m.kind = .call)
    (hn : Node.calleeName m.info ≠ "") : Node.calleeName m.info ∈ callsInEach n.children := by
  induction h with
  | child hm => exact callsIn_subset hm (calleeName_mem_callsIn hk hn)
  | deeper _ hm ih => exact callsIn_subset hm (callsInEach_subset _ ih)

/-! ## The graph of some definitions -/

theorem mem_foldl_insert :
    ∀ {names : List String} {s : NameSet}, x ∈ names.foldl NameSet.insert s ↔ x ∈ names ∨ x ∈ s
  | [], s => by simp
  | n :: names, s => by
      rw [List.foldl_cons, mem_foldl_insert, NameSet.mem_insert, List.mem_cons]
      exact or_left_comm.trans or_assoc.symm

theorem mem_callees : x ∈ g.callees f ↔ x ∈ (g.get? f).getD {} := by
  unfold callees
  cases g.get? f with
  | none => exact Iff.rfl
  | some s => exact Iff.rfl

theorem mem_callees_addDefinition : x ∈ (addDefinition g n).callees f ↔
    (n.spelling = f ∧ x ∈ callsInEach n.children) ∨ x ∈ g.callees f := by
  rw [mem_callees, addDefinition, Table.get?_set]
  split
  · next h => subst h; simp [mem_foldl_insert, mem_callees]
  · next h => simp [h, mem_callees]

theorem mem_callees_foldl :
    ∀ {ns : List Node} {g : CallGraph}, x ∈ (ns.foldl addDefinition g).callees f ↔
      (∃ n ∈ ns, n.spelling = f ∧ x ∈ callsInEach n.children) ∨ x ∈ g.callees f
  | [], g => by simp
  | n :: ns, g => by
      rw [List.foldl_cons, mem_callees_foldl, mem_callees_addDefinition]
      simp only [List.mem_cons, exists_eq_or_imp]
      exact or_left_comm.trans or_assoc.symm

theorem mem_callees_ofProject {fs : Files} {project : String} :
    x ∈ (ofProject fs project).callees f ↔ ∃ n ∈ definitions fs project, n.spelling = f ∧
    x ∈ callsInEach n.children := by
  rw [ofProject, mem_callees_foldl]
  simp [callees]

theorem bounded_callees (g : CallGraph) :
    Order.Bounded g.callees (total (fun s => s.toList.length) g.values) := by
  intro fs hn
  have hle := Order.total_lookup_le (fun s : NameSet => s.toList.length) g.entries fs hn
  have heq : total (fun f => (g.callees f).length) fs =
      total (fun f => (Table.lookup f g.entries).elim 0 fun s => s.toList.length) fs := by
    refine total_congr fun f _ => ?_
    cases h : Table.lookup f g.entries <;> simp [callees, Table.get?, h]
  rw [heq, Table.values, total_map]
  exact hle

end CallGraph

/-! ## What the walk of a body asks of the call index -/

namespace Walk

/-- Two call indexes give the same function for each of some names. -/
def Agree (calls calls' : CallIndex) (names : List String) : Prop :=
  ∀ name ∈ names, calls.get? (.text name) = calls'.get? (.text name)

variable {calls calls' : CallIndex} {s : Scope}

theorem Agree.subset {names names' : List String} (h : Agree calls calls' names)
    (hs : names' ⊆ names) : Agree calls calls' names' :=
  fun name hn => h name (hs hn)

variable {i : NodeInfo} {cs : List Node} {d : Option Node}

theorem Agree.children (h : Agree calls calls' (callsIn (.mk i cs d))) :
    Agree calls calls' (callsInEach cs) :=
  h.subset (callsInEach_subset (.mk i cs d))

theorem Agree.of_mem {c : Node} (h : Agree calls calls' (callsInEach cs))
    (hc : c ∈ cs) : Agree calls calls' (callsIn c) :=
  h.subset (callsIn_subset hc)

theorem mergeCall_congr (hk : i.kind = .call)
    (h : Agree calls calls' (callsIn (.mk i cs d))) (arguments : List Node) :
    mergeCall calls s (Node.calleeName i) arguments =
      mergeCall calls' s (Node.calleeName i) arguments := by
  unfold mergeCall
  by_cases hn : Node.calleeName i = ""
  · simp [hn]
  · have hget : calls.get? (.text (Node.calleeName i)) = calls'.get? (.text (Node.calleeName i)) :=
      h _ (calleeName_mem_callsIn (n := .mk i cs d) hk hn)
    rw [hget]

mutual

theorem walk_congr (n : Node) (h : Agree calls calls' (callsIn n)) :
    walk calls s n = walk calls' s n := by
  obtain ⟨i, cs, d⟩ := n
  have heach := walkEach_congr cs h.children
  have hcs : ∀ c ∈ cs, Agree calls calls' (callsIn c) :=
    fun c hc => h.children.of_mem hc
  unfold walk
  rw [heach]
  dsimp only
  split
  case h_7 | h_8 =>
    match cs with
    | [] | [_] => rfl
    | left :: right :: _ =>
      dsimp only
      rw [walk_congr left (hcs left (by simp)), walk_congr right (hcs right (by simp)),
        assign_congr [.read, .write] left (hcs left (by simp)),
        assign_congr [.write] left (hcs left (by simp))]
  · rw [walkInit_congr _ cs h.children]
  · next hk => rw [mergeCall_congr hk h]
  · rfl
  · match cs with
    | [] => rfl
    | c :: _ =>
      dsimp only
      rw [walk_congr c (hcs c (by simp))]
  · match cs with
    | [] | [_] => rfl
    | base :: index :: _ =>
      dsimp only
      rw [walk_congr base (hcs base (by simp)), walk_congr index (hcs index (by simp))]
  · match cs with
    | [] => rfl
    | .mk j ds e :: _ =>
      have hc := hcs (.mk j ds e) (by simp)
      dsimp only
      rw [walk_congr (.mk j ds e) hc, assign_congr _ (.mk j ds e) hc]
      match ds with
      | [] | [_] => rfl
      | _ :: index :: _ =>
        dsimp only
        rw [walk_congr index (hc.children.of_mem (by simp))]
  · rfl

theorem assign_congr (uses : List Use) (n : Node) (h : Agree calls calls' (callsIn n)) :
    assign calls s uses n = assign calls' s uses n := by
  obtain ⟨i, cs, d⟩ := n
  unfold assign
  split
  case h_1 | h_2 | h_3 =>
    match cs with
    | [] => rfl
    | c :: _ => exact assign_congr uses c (h.children.of_mem (by simp))
  · match cs with
    | [] | [_] => rfl
    | _ :: index :: _ =>
      dsimp only
      rw [walk_congr index (h.children.of_mem (by simp))]
  · rfl
  · rfl

theorem walkInit_congr (key : String) (ns : List Node)
    (h : Agree calls calls' (callsInEach ns)) :
    walkInit calls s key ns = walkInit calls' s key ns := by
  match ns with
  | [] => rfl
  | .mk i cs d :: ns =>
    unfold walkInit
    rw [walk_congr _ (h.of_mem (List.mem_cons_self ..)),
      walkInit_congr key ns (h.subset (List.subset_append_right _ _))]

theorem walkEach_congr (ns : List Node) (h : Agree calls calls' (callsInEach ns)) :
    walkEach calls s ns = walkEach calls' s ns := by
  match ns with
  | [] => simp [walkEach]
  | .mk i cs d :: ns =>
    unfold walkEach
    rw [walk_congr _ (h.of_mem (List.mem_cons_self ..)),
      walkEach_congr ns (h.subset (List.subset_append_right _ _))]

end

/-- The walk of a body asks the call index only for names that are called below the body. -/
theorem walkBody_congr {body : Node}
    (h : Agree calls calls' (callsInEach body.children)) :
    walkBody calls s body = walkBody calls' s body := by
  rw [walkBody, walkBody, walkEach_congr _ h]

end Walk

end Footprint
