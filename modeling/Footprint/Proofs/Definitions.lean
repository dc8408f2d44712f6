import Footprint.Proofs.CallGraph
import Footprint.Proofs.Reading

/-!
# Two readings of the definitions of a project

The call graph and the list of functions are read off a project by walks of
their own.  The graph has one key for each name, and takes in every definition
of it.  The list has one function for each file and name, and the first
definition counts.  Both see the same names: where a definition is left out of
the list, its name is there (`Lists`).

The callees of a function are the names that its definitions call, at any depth.
-/

namespace Footprint

/-! ## Names in the order of their first appearance -/

section Firsts

variable {α : Type} [DecidableEq α]
variable {a : α} {as : List α}

theorem eraseDups_append_of_mem (h : a ∈ as) : (as ++ [a]).eraseDups = as.eraseDups := by
  rw [List.eraseDups_append]
  simp [List.removeAll, h]

theorem eraseDups_append_of_not_mem (h : a ∉ as) : (as ++ [a]).eraseDups = as.eraseDups ++ [a] := by
  rw [List.eraseDups_append]
  simp [List.removeAll, h, List.eraseDups_cons]

theorem eraseDups_append_congr {bs : List α} (h : as.eraseDups = bs.eraseDups) :
    (as ++ [a]).eraseDups = (bs ++ [a]).eraseDups := by
  have hmem : a ∈ as ↔ a ∈ bs := by rw [← List.mem_eraseDups, h, List.mem_eraseDups]
  by_cases ha : a ∈ as
  · rw [eraseDups_append_of_mem ha, eraseDups_append_of_mem (hmem.mp ha), h]
  · rw [eraseDups_append_of_not_mem ha, eraseDups_append_of_not_mem (mt hmem.mpr ha), h]

theorem map_fst_put {ν : Type} (a : α) (v : ν) (es : List (α × ν)) :
    (Table.put a v es).map Prod.fst =
      if a ∈ es.map Prod.fst then es.map Prod.fst else es.map Prod.fst ++ [a] := by
  induction es with
  | nil => rfl
  | cons e es ih =>
    obtain ⟨b, w⟩ := e
    rw [Table.put]
    by_cases hb : b = a
    · simp [hb]
    · rw [if_neg hb, List.map_cons, List.map_cons, ih]
      simp only [List.mem_cons, Ne.symm hb, false_or]
      split
      · rfl
      · rfl

theorem Table.keys_set {ν : Type} (t : Table α ν) (a : α) (v : ν) :
    (t.set a v).keys = if a ∈ t.keys then t.keys else t.keys ++ [a] :=
  map_fst_put a v t.entries

end Firsts

/-- What one step adds to a list of the steps done, a run of steps adds in all. -/
theorem Ends.forM_growing {α σ : Type} {f : α → EStateM Fault σ PUnit} {I : List α → σ → Prop}
    {E : Fault → σ → Prop} (as done : List α) {s : σ}
    (h : ∀ a ∈ as, ∀ done s, I done s → Ends (f a) s (fun _ => I (done ++ [a])) E) (hs : I done s) :
    Ends (as.forM f) s (fun _ => I (done ++ as)) E := by
  induction as generalizing done s with
  | nil =>
    rw [List.append_nil]
    exact Ends.pure hs
  | cons a as ih =>
    obtain ⟨ha, has⟩ := List.forall_mem_cons.mp h
    rw [List.append_cons]
    exact Ends.bind ((ha done s hs).mono (fun _ _ hs' => ih (done ++ [a]) has hs') fun _ _ he => he)

namespace CallGraph

/-- The names of some definitions are the keys of their graph, each where it first appears. -/
theorem keys_foldl_addDefinition (ns : List Node) :
    (ns.foldl addDefinition ({} : CallGraph)).keys = (ns.map Node.spelling).eraseDups := by
  suffices h : ∀ (ns done : List Node) (g : CallGraph),
      g.keys = (done.map Node.spelling).eraseDups →
        (ns.foldl addDefinition g).keys = ((done ++ ns).map Node.spelling).eraseDups from
    h ns [] {} rfl
  intro ns
  induction ns with
  | nil => intro done g h; rw [List.append_nil]; exact h
  | cons n ns ih =>
    intro done g h
    rw [List.foldl_cons, List.append_cons]
    refine ih (done ++ [n]) _ ?_
    rw [addDefinition, Table.keys_set, h, List.map_append]
    split
    · next hmem => exact (eraseDups_append_of_mem (List.mem_eraseDups.mp hmem)).symm
    · next hmem => exact (eraseDups_append_of_not_mem (mt List.mem_eraseDups.mpr hmem)).symm

/-! ## Calls at any depth -/

theorem below_of_child {k n : Node} (h : ∃ c ∈ n.children, k = c ∨ k.Below c) : k.Below n := by
  obtain ⟨c, hc, rfl | hk⟩ := h
  · exact .child hc
  · exact .deeper hk hc

/-- The node is a call of the name. -/
structure IsCallOf (x : String) (k : Node) : Prop where
  kind : k.kind = .call
  name : Node.calleeName k.info = x
  nonempty : x ≠ ""

mutual

variable {x : String}

theorem exists_of_mem_callsIn (n : Node) (h : x ∈ callsIn n) :
    ∃ k : Node, (k = n ∨ k.Below n) ∧ IsCallOf x k := by
  obtain ⟨i, cs, d⟩ := n
  have hchildren (h : x ∈ callsInEach cs) :
      ∃ k, (k = .mk i cs d ∨ k.Below (.mk i cs d)) ∧ IsCallOf x k := by
    obtain ⟨k, hk, hcall⟩ := exists_of_mem_callsInEach cs h
    exact ⟨k, .inr (below_of_child hk), hcall⟩
  unfold callsIn at h
  dsimp only at h
  split at h
  · next hcall =>
    rcases List.mem_cons.mp h with rfl | h
    · obtain ⟨hk, hname⟩ := Bool.and_eq_true_iff.mp hcall
      exact ⟨_, .inl rfl, of_decide_eq_true hk, rfl, by simpa using hname⟩
    · exact hchildren h
  · exact hchildren h

theorem exists_of_mem_callsInEach (ns : List Node) (h : x ∈ callsInEach ns) :
    ∃ k : Node, (∃ n ∈ ns, k = n ∨ k.Below n) ∧ IsCallOf x k := by
  match ns with
  | [] => simp [callsInEach] at h
  | n :: ns =>
    unfold callsInEach at h
    rcases List.mem_append.mp h with h | h
    · obtain ⟨k, hk, hcall⟩ := exists_of_mem_callsIn n h
      exact ⟨k, ⟨n, List.mem_cons_self .., hk⟩, hcall⟩
    · obtain ⟨k, ⟨m, hm, hk⟩, hcall⟩ := exists_of_mem_callsInEach ns h
      exact ⟨k, ⟨m, List.mem_cons_of_mem n hm, hk⟩, hcall⟩

end

/-- The calls below a node are those that stand there at any depth and have a name. -/
theorem mem_callsInEach_iff {n : Node} {x : String} :
    x ∈ callsInEach n.children ↔ ∃ k : Node, k.Below n ∧ IsCallOf x k := by
  constructor
  · intro h
    obtain ⟨k, hk, hcall⟩ := exists_of_mem_callsInEach _ h
    exact ⟨k, below_of_child hk, hcall⟩
  · rintro ⟨k, hk, hkind, rfl, hne⟩
    exact mem_callsInEach_of_below hk hkind hne

end CallGraph

/-! ## The functions that are collected -/

namespace Project

variable {fs : Files} {project : String} {p q : Project} {n : Node} {done : List Node}
variable {names : List String}

/-- What stands at the top of the syntax trees of a project. -/
def topLevel (fs : Files) (project : String) : List Node :=
  (fs.sources project).flatMap fun source => source.2.tree

/-- The node has a name but no type. -/
def Untyped (n : Node) : Prop := n.spelling ≠ "" ∧ n.info.type = none

instance (n : Node) : Decidable (Untyped n) := inferInstanceAs (Decidable (_ ∧ _))

/-- A type is missing that collecting the node asks for: that of a global variable, or that of a
parameter of a definition. -/
def LacksType (fs : Files) (project : String) (n : Node) : Prop :=
  inProject fs project n = true ∧ n.kind = .varDecl ∧ Untyped n ∨
    definesFunction fs project n = true ∧ ∃ c ∈ n.children, c.kind = .paramDecl ∧ Untyped c

instance (fs : Files) (project : String) (n : Node) : Decidable (LacksType fs project n) :=
  inferInstanceAs (Decidable (_ ∨ _))

/-- The functions are left as they are. -/
structure SameFunctions (p q : Project) : Prop where
  functions : q.functions = p.functions
  seen : q.seenFunctions = p.seenFunctions

theorem declaredType_ends (n : Node) (p : Project) :
    Ends (declaredType n) p (fun _ q => q = p) fun e _ => e = .untyped ∧ n.info.type = none := by
  unfold declaredType
  split
  · exact Ends.pure rfl
  · next ht => exact Ends.throw ⟨rfl, ht⟩

theorem declareParams_ends (function : String) (ns : List Node) (params : List Label)
    (vars : Table String VarId) (p : Project) :
    Ends (declareParams function params vars ns) p (fun _ => SameFunctions p)
      fun e _ => e = .untyped ∧ ∃ c ∈ ns, c.kind = .paramDecl ∧ Untyped c := by
  induction ns generalizing params vars p with
  | nil => exact Ends.pure ⟨rfl, rfl⟩
  | cons n ns ih =>
    have hmore (e : Fault) (_ : Project)
        (h : e = .untyped ∧ ∃ c ∈ ns, c.kind = .paramDecl ∧ Untyped c) :
        e = .untyped ∧ ∃ c ∈ n :: ns, c.kind = .paramDecl ∧ Untyped c := by
      obtain ⟨he, c, hc, hlacks⟩ := h
      exact ⟨he, c, List.mem_cons_of_mem n hc, hlacks⟩
    unfold declareParams
    split
    · next hn =>
      obtain ⟨hk, hname⟩ := Bool.and_eq_true_iff.mp hn
      refine Ends.bind ((declaredType_ends n p).mono ?_ ?_)
      · rintro t _ rfl
        refine Ends.bind_ok (onMemory_declare _ _) ((ih _ _ _).mono ?_ hmore)
        exact fun _ _ h => ⟨h.functions, h.seen⟩
      · rintro e _ ⟨he, ht⟩
        exact ⟨he, n, List.mem_cons_self .., of_decide_eq_true hk, by simpa using hname, ht⟩
    · exact (ih params vars p).mono (fun _ _ h => h) hmore

variable {p₀ : Project} {E : Fault → Project → Prop}

theorem declareGlobal_ends (h : SameFunctions p₀ p)
    (name : String) (t : NodeType) :
    Ends (declareGlobal name t) p (fun _ => SameFunctions p₀) E := by
  refine Ends.bind (Ends.get ?_)
  split
  · exact Ends.pure h
  · exact Ends.bind_ok (onMemory_declare p _) (Ends.modify ⟨h.functions, h.seen⟩)

theorem noteInit_ends (h : SameFunctions p₀ p)
    (name : String) (n : Node) : Ends (noteInit name n) p (fun _ => SameFunctions p₀) E := by
  unfold noteInit
  split
  · exact Ends.modify ⟨h.functions, h.seen⟩
  · exact Ends.pure h

theorem addGlobal_ends (n : Node) (p : Project) :
    Ends (addGlobal n) p (fun _ => SameFunctions p) fun e _ => e = .untyped ∧ Untyped n := by
  unfold addGlobal
  split
  · exact Ends.pure ⟨rfl, rfl⟩
  · next hname =>
    refine Ends.bind ((declaredType_ends n p).mono ?_ ?_)
    · rintro t _ rfl
      refine Ends.bind ((declareGlobal_ends ⟨rfl, rfl⟩ _ t).mono (fun _ q hq => ?_) fun _ _ h => h)
      split
      · exact noteInit_ends hq _ n
      · exact Ends.pure hq
    · rintro e _ ⟨he, ht⟩
      exact ⟨he, by simpa using hname, ht⟩

theorem addType_ends (n : Node) (p : Project) :
    Ends (addType fs n) p (fun _ => SameFunctions p) E := by
  refine Ends.bind (Ends.get ?_)
  split
  · exact Ends.pure ⟨rfl, rfl⟩
  · exact Ends.modify ⟨rfl, rfl⟩

/-- Of the nodes met so far, the list of functions has the names that the graph has.  A definition
counts as met only if its name is in the list. -/
structure Lists (fs : Files) (project : String) (done : List Node) (names : List String)
    (p : Project) : Prop where
  functions : p.functions.map Function.name = names.map Label.text
  firsts : names.eraseDups =
    ((done.filter (definesFunction fs project)).map Node.spelling).eraseDups
  seen : ∀ key ∈ p.seenFunctions, key.2 ∈ names

theorem Lists.start : Lists fs project [] [] {} := ⟨rfl, rfl, fun _ h => absurd h List.not_mem_nil⟩

theorem Lists.skip (h : Lists fs project done names p) (hs : SameFunctions p q)
    (hn : definesFunction fs project n = false) : Lists fs project (done ++ [n]) names q where
  functions := hs.functions ▸ h.functions
  firsts := by simp [List.filter_append, hn, h.firsts]
  seen := hs.seen ▸ h.seen

/-- A definition of a name that is known is left out. -/
theorem Lists.again (h : Lists fs project done names p) (hn : definesFunction fs project n = true)
    (hknown : n.spelling ∈ names) : Lists fs project (done ++ [n]) names p where
  functions := h.functions
  firsts := by
    have hmet : n.spelling ∈ (done.filter (definesFunction fs project)).map Node.spelling :=
      List.mem_eraseDups.mp (h.firsts ▸ List.mem_eraseDups.mpr hknown)
    rw [List.filter_append, List.filter_cons_of_pos hn, List.map_append, h.firsts]
    exact (eraseDups_append_of_mem hmet).symm
  seen := h.seen

/-- A definition that is taken adds its name. -/
theorem Lists.add {f : Function} {file : String} (h : Lists fs project done names p)
    (hn : definesFunction fs project n = true) (hfunctions : q.functions = p.functions)
    (hseen : q.seenFunctions = (file, n.spelling) :: p.seenFunctions)
    (hf : f.name = .text n.spelling) :
    Lists fs project (done ++ [n]) (names ++ [n.spelling]) (q.withFunction f) where
  functions := by
    have hpush : (q.withFunction f).functions = q.functions ++ [f] := Array.toList_push
    rw [hpush, List.map_append, List.map_append, hfunctions, h.functions, List.map_singleton, hf]
    rfl
  firsts := by
    rw [List.filter_append, List.filter_cons_of_pos hn, List.map_append]
    exact eraseDups_append_congr h.firsts
  seen key hkey := by
    have hkey : key ∈ (file, n.spelling) :: p.seenFunctions := hseen ▸ hkey
    rcases List.mem_cons.mp hkey with rfl | hkey
    · exact List.mem_append_right _ (List.mem_singleton_self _)
    · exact List.mem_append_left _ (h.seen key hkey)

theorem addDefinition_ends (h : Lists fs project done names p)
    (hn : definesFunction fs project n = true) :
    Ends (addDefinition fs project n) p
      (fun _ q => ∃ names, Lists fs project (done ++ [n]) names q)
      fun e _ => e = .untyped ∧ ∃ c ∈ n.children, c.kind = .paramDecl ∧ Untyped c := by
  refine Ends.bind (Ends.get ?_)
  split
  · next hseen =>
    exact Ends.pure ⟨names, h.again hn (h.seen _ (List.contains_iff_mem.mp hseen))⟩
  · refine Ends.bind (Ends.modify (Ends.bind ((declareParams_ends _ _ _ _ _).mono ?_
      fun _ _ he => he)))
    rintro ⟨params, vars⟩ q hq
    exact Ends.of_ok (addFunction_ok q _) ⟨_, h.add hn hq.functions hq.seen rfl⟩

/-- One more declaration is read, or lacks its type. -/
theorem addDeclaration_ends (h : ∃ names, Lists fs project done names p) (n : Node) :
    Ends (addDeclaration fs project n) p
      (fun _ q => ∃ names, Lists fs project (done ++ [n]) names q)
      fun e _ => e = .untyped ∧ LacksType fs project n := by
  obtain ⟨names, h⟩ := h
  have hother (hk : n.kind ≠ .functionDecl) : definesFunction fs project n = false := by
    simp [definesFunction, hk]
  unfold addDeclaration
  split
  · next hout =>
    have hout : inProject fs project n = false := by simpa using hout
    exact Ends.pure ⟨names, h.skip ⟨rfl, rfl⟩ (by simp [definesFunction, hout])⟩
  · next hin =>
    have hin : inProject fs project n = true := by simpa using hin
    split
    · next hk =>
      refine (addGlobal_ends n p).mono ?_ fun _ _ he => ⟨he.1, .inl ⟨hin, hk, he.2⟩⟩
      exact fun _ q hq => ⟨names, h.skip hq (hother (by simp [hk]))⟩
    · split
      · next hn =>
        refine (addDefinition_ends h hn).mono (fun _ _ hq => hq) ?_
        exact fun _ _ he => ⟨he.1, .inr ⟨hn, he.2⟩⟩
      · next hn => exact Ends.pure ⟨names, h.skip ⟨rfl, rfl⟩ (by simpa using hn)⟩
    case h_3 hk | h_4 hk | h_5 hk =>
      refine (addType_ends n p).mono ?_ fun _ _ he => he
      exact fun _ q hq => ⟨names, h.skip hq (hother (by simp [hk]))⟩
    case h_6 hk => exact Ends.modify ⟨names, h.skip ⟨rfl, rfl⟩ (hother (by simp [hk]))⟩
    case h_7 _ hk _ _ _ _ => exact Ends.pure ⟨names, h.skip ⟨rfl, rfl⟩ (hother hk)⟩

theorem forM_addDeclaration_ends {ns : List Node} (h : ∃ names, Lists fs project done names p) :
    Ends (ns.forM (addDeclaration fs project)) p
      (fun _ q => ∃ names, Lists fs project (done ++ ns) names q)
      fun e _ => e = .untyped ∧ ∃ n ∈ ns, LacksType fs project n := by
  refine Ends.forM_growing ns done (I := fun nodes p => ∃ names, Lists fs project nodes names p)
    (fun n hn nodes p hp => ?_) h
  refine (addDeclaration_ends hp n).mono (fun _ _ hq => hq) fun _ _ he => ?_
  exact ⟨he.1, n, hn, he.2⟩

/-- The functions that are collected have the names of the definitions. -/
theorem collect_ends (fs : Files) (project : String) :
    Ends (collect fs project) {}
      (fun _ p => ∃ names, Lists fs project (topLevel fs project) names p) fun e _ => e = .untyped ∧
      ∃ n ∈ topLevel fs project, LacksType fs project n := by
  have hrun := Ends.forM_growing (fs.sources project) [] (I := fun sources p => ∃ names,
    Lists fs project (sources.flatMap fun source => source.2.tree) names p)
    (f := fun source => source.2.tree.forM (addDeclaration fs project))
    (E := fun e _ => e = .untyped ∧ ∃ n ∈ topLevel fs project, LacksType fs project n)
    ?_ ⟨[], .start⟩
  · rw [List.nil_append] at hrun
    exact hrun
  rintro ⟨path, content⟩ hsource done p hp
  rw [List.flatMap_append, List.flatMap_singleton]
  refine (forM_addDeclaration_ends hp).mono (fun _ _ hq => hq) ?_
  rintro e _ ⟨he, n, hn, hlacks⟩
  exact ⟨he, n, List.mem_flatMap.mpr ⟨_, hsource, hn⟩, hlacks⟩

end Project

/-- The call graph has a key for each function that is defined in the project, in the order in
which the names first appear, and its callees are the names that the definitions call.  The
functions that are collected have the same names.  Collecting them stops only where a type is
missing. -/
theorem CallGraph.keys_eq_collected (fs : Files) (project : String) :
    (ofProject fs project).keys = ((definitions fs project).map Node.spelling).eraseDups ∧
    (∀ f c, c ∈ (ofProject fs project).callees f ↔
      ∃ n ∈ definitions fs project, n.spelling = f ∧ ∃ k : Node, k.Below n ∧ IsCallOf c k) ∧
    (∀ p, Project.collect fs project {} = .ok ⟨⟩ p →
      ∃ names : List String, p.functions.map Function.name = names.map Label.text ∧
        names.eraseDups = (ofProject fs project).keys) ∧
    ((∀ n ∈ Project.topLevel fs project, ¬ Project.LacksType fs project n) →
      ∃ p, Project.collect fs project {} = .ok ⟨⟩ p) := by
  have hkeys :
      (ofProject fs project).keys = ((definitions fs project).map Node.spelling).eraseDups :=
    keys_foldl_addDefinition _
  have hends := Project.collect_ends fs project
  refine ⟨hkeys, fun f c => ?_, fun p hp => ?_, fun htyped => ?_⟩
  · rw [mem_callees_ofProject]
    simp only [mem_callsInEach_iff]
  · obtain ⟨names, h⟩ := hends.value _ _ hp
    exact ⟨names, h.functions, h.firsts.trans hkeys.symm⟩
  · cases hrun : Project.collect fs project {} with
    | ok _ p => exact ⟨p, rfl⟩
    | error e p =>
      obtain ⟨_, n, hn, hlacks⟩ := hends.fault e p hrun
      exact absurd hlacks (htyped n hn)

/-- A definition in a file, with calls in a loop. -/
def loopIn (file name : String) (calls : List String) : Node :=
  .mk { kind := .functionDecl, spelling := name, file := some file, isDefinition := true }
    [.mk { kind := .paramDecl, spelling := "n", type := some ⟨"int", .other, .other⟩ } [] none,
      .mk { kind := .other } (calls.map fun callee =>
        .mk { kind := .call, spelling := callee } [] none) none] none

/-- Two files that both define `log`, and one of them twice. -/
def logTwice : Files where
  here := "/"
  entries := [("p", .folder [
    ("a.c", .file { tree := [loopIn "/p/a.c" "main" ["log"], loopIn "/p/a.c" "log" [],
      loopIn "/p/a.c" "log" []] }),
    ("b.c", .file { tree := [loopIn "/p/b.c" "log" ["main"]] })])]

/-- Three functions are collected, of two names. -/
theorem CallGraph.keys_eq_collected_logTwice :
    (ofProject logTwice "/p").keys = ["main", "log"] ∧
    "main" ∈ (ofProject logTwice "/p").callees "log" ∧
    ∃ p, Project.collect logTwice "/p" {} = .ok ⟨⟩ p ∧ p.functions.length = 3 ∧
      ∃ names : List String, p.functions.map Function.name = names.map Label.text ∧
        names.eraseDups = ["main", "log"] := by
  have htyped : ∀ n ∈ Project.topLevel logTwice "/p", ¬ Project.LacksType logTwice "/p" n := by
    decide +kernel
  have hkeys : (ofProject logTwice "/p").keys = ["main", "log"] := by decide +kernel
  obtain ⟨_, _, hcollected, hends⟩ := keys_eq_collected logTwice "/p"
  obtain ⟨p, hp⟩ := hends htyped
  obtain ⟨names, hnames, hfirsts⟩ := hcollected p hp
  have hlength : (after? (Project.collect logTwice "/p" {})).map
      (fun p => p.functions.length) = some 3 := by decide +kernel
  rw [hp] at hlength
  exact ⟨hkeys, by decide +kernel, p, hp, Option.some.inj hlength, names, hnames,
    hfirsts.trans hkeys⟩

end Footprint
