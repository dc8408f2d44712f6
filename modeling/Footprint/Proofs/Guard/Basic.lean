import Footprint.Analysis.Run
import Footprint.Proofs.Outcome
import Footprint.Proofs.Text

/-!
# What a run of a body keeps

A `Guard` is what one run of a body keeps: a property of its state, and which
names and addresses it may come by.  `Passes` says that a step which starts from
a guarded state ends in one, and gives back only such names and addresses.  It
has a memory as a parameter, from which on the step may be taken, so that names
and addresses which were found earlier can be used later.

`Finds`, `Marks` and `Sound` list the steps that a walk is put together from:
those that look things up, those that note uses, and all of them.
-/

namespace Footprint

open Node Text

/-! ## Names of parts -/

/-- What may follow a name in the name of a part of it: nothing, or a member or an index. -/
def PathEnd (rest : String) : Prop := ∀ c ∈ rest.toList.head?, c = '.' ∨ c = '['

theorem pathEnd_empty : PathEnd "" := fun _ h => nomatch h

theorem pathEnd_member (rest : String) : PathEnd ("." ++ rest) := by
  intro c h
  rw [String.toList_append] at h
  cases h
  exact .inl rfl

theorem pathEnd_index (rest : String) : PathEnd ("[" ++ rest) := by
  intro c h
  rw [String.toList_append] at h
  cases h
  exact .inr rfl

/-- A text is what stands before a piece, and then nothing or a text that starts with the piece. -/
theorem Text.exists_eq_before_append (p s : String) :
    ∃ rest, s = before p s ++ rest ∧ (rest = "" ∨ ∃ t, rest = p ++ t) := by
  rw [before]
  cases hcut : cutAt? p.toList s.toList with
  | none => exact ⟨"", String.append_empty.symm, .inl rfl⟩
  | some parts =>
    obtain ⟨start, rest⟩ := parts
    refine ⟨p ++ String.ofList rest, String.ext ?_, .inr ⟨_, rfl⟩⟩
    simp [eq_of_cutAt? hcut]

/-- What follows the variable at the start of a name is a member or an index. -/
theorem pathEnd_dropFirst (name : String) :
    PathEnd (dropFirst (before "." (before "[" name)).length name) := by
  obtain ⟨index, hindex, hindexEnd⟩ := exists_eq_before_append "[" name
  obtain ⟨member, hmember, hmemberEnd⟩ := exists_eq_before_append "." (before "[" name)
  have hname : name = before "." (before "[" name) ++ (member ++ index) := by
    rw [← String.append_assoc, ← hmember, ← hindex]
  have hrest : PathEnd (member ++ index) := by
    rcases hmemberEnd with rfl | ⟨t, rfl⟩
    · rcases hindexEnd with rfl | ⟨t, rfl⟩
      · exact pathEnd_empty
      · exact pathEnd_index t
    · rw [String.append_assoc]
      exact pathEnd_member _
  generalize before "." (before "[" name) = start at hname ⊢
  rw [hname, dropFirst_append]
  exact hrest

/-- What follows a name in the name of a part of it, after the name is cut off. -/
theorem pathEnd_of_starts {start name : String}
    (h : (starts (start ++ ".") name || starts (start ++ "[") name) = true) :
    PathEnd (dropFirst start.length name) := by
  rcases Bool.or_eq_true_iff.mp h with h | h
  · obtain ⟨t, rfl⟩ := starts_iff.mp h
    rw [String.append_assoc, dropFirst_append]
    exact pathEnd_member t
  · obtain ⟨t, rfl⟩ := starts_iff.mp h
    rw [String.append_assoc, dropFirst_append]
    exact pathEnd_index t

/-! ## Nodes of a tree -/

mutual

/-- Every node of a tree has a property. -/
def Node.Every (p : NodeInfo → Prop) : Node → Prop
  | .mk i cs _ => p i ∧ EveryIn p cs

/-- Every node of some trees has a property. -/
def Node.EveryIn (p : NodeInfo → Prop) : List Node → Prop
  | [] => True
  | c :: rest => Every p c ∧ EveryIn p rest

end

mutual

/-- Decides a property of every node of a tree. -/
def Node.decideEvery {p : NodeInfo → Prop} [DecidablePred p] : ∀ n : Node, Decidable (n.Every p)
  | .mk i cs _ =>
    have := decideEveryIn (p := p) cs
    decidable_of_iff (p i ∧ EveryIn p cs) (by rw [Every])

/-- Decides a property of every node of some trees. -/
def Node.decideEveryIn {p : NodeInfo → Prop} [DecidablePred p] :
    ∀ cs : List Node, Decidable (EveryIn p cs)
  | [] => .isTrue trivial
  | c :: rest =>
    have := decideEvery (p := p) c
    have := decideEveryIn (p := p) rest
    decidable_of_iff (c.Every p ∧ EveryIn p rest) (by rw [EveryIn])

end

instance {p : NodeInfo → Prop} [DecidablePred p] (n : Node) : Decidable (n.Every p) := n.decideEvery

section Every

variable {p : NodeInfo → Prop} {cs : List Node}

theorem Node.everyIn_iff : EveryIn p cs ↔ ∀ c ∈ cs, c.Every p := by
  induction cs with
  | nil => simp [EveryIn]
  | cons c cs ih => rw [EveryIn, ih, List.forall_mem_cons]

theorem Node.every_head? (hcs : EveryIn p cs) : ∀ c, cs.head? = some c → c.Every p :=
  fun c hc => everyIn_iff.mp hcs c (List.mem_of_mem_head? hc)

theorem Node.every_arguments {n : Node} (hn : n.Every p) : ∀ c ∈ n.arguments, c.Every p := by
  obtain ⟨i, cs, d⟩ := n
  intro c hc
  obtain ⟨k, _, hk⟩ := List.mem_filterMap.mp hc
  exact everyIn_iff.mp hn.2 c (List.mem_of_getElem? hk)

mutual

theorem Node.every_of_forall (h : ∀ i, p i) : ∀ n : Node, n.Every p
  | .mk i cs _ => ⟨h i, everyIn_of_forall h cs⟩

theorem Node.everyIn_of_forall (h : ∀ i, p i) : ∀ cs : List Node, EveryIn p cs
  | [] => trivial
  | c :: cs => ⟨every_of_forall h c, everyIn_of_forall h cs⟩

end

end Every

/-- The node assigns to something, or counts it up or down. -/
def NodeInfo.Assigns (i : NodeInfo) : Prop :=
  i.kind = .unary ∧ operatorOf i ∈ ["++", "--"] ∨
    i.kind ∈ [NodeKind.binary, .compoundAssign] ∧
      operatorOf i ∈ "=" :: compoundOperators

namespace Walk

/-- Declares a local, and gives its type back.  A pointer points nowhere at first. -/
def declared (s : Scope) (i : NodeInfo) : WalkM NodeType := do
  declareLocal s i
  let t ← typeOf i
  if t.shape = .pointer then setTarget (ownedName s.name i.spelling) none
  return t

/-! ## Guards -/

/-- What one run of a body keeps. -/
structure Guard where
  state : Walk → Prop
  /-- The state where the run stops with a fault. -/
  fault : Fault → Walk → Prop
  /-- A memory that may come after another one. -/
  later : Memory → Memory → Prop
  /-- Addresses that the run may come by. -/
  address : Memory → Int → Prop
  /-- Names that the run may come by. -/
  name : Memory → String → Prop
  /-- Nodes that may stand in the body. -/
  node : NodeInfo → Prop
  refl : ∀ m, later m m
  trans : ∀ {m m' m''}, later m m' → later m' m'' → later m m''
  later_address : ∀ {m m' a}, address m a → later m m' → address m' a
  later_name : ∀ {m m' n}, name m n → later m m' → name m' n
  stop : ∀ {w}, state w → fault .nameNotText w

namespace Guard

variable (G : Guard)

/-- A step keeps the guard, from a memory on. -/
structure Passes {α : Type} (m : Memory) (V : α → Memory → Prop) (x : WalkM α) : Prop where
  ends : ∀ w, G.state w → G.later m w.memory →
    Ends x w (fun a w' => G.state w' ∧ G.later w.memory w'.memory ∧ V a w'.memory) G.fault

/-- The result says nothing. -/
abbrev PassesAny {α : Type} (m : Memory) (x : WalkM α) : Prop := G.Passes m (fun _ _ => True) x

/-- The target of a pointer, if it has one, is an address that the run may come by. -/
abbrev Target (t : Option Int) (m : Memory) : Prop := ∀ a, t = some a → G.address m a

/-- The address of a name, if it has one, is an address that the run may come by. -/
abbrev Found (found : Option Nat) (m : Memory) : Prop := ∀ c : Nat, found = some c → G.address m c

/-- The name, if there is one, is one that the run may come by. -/
abbrev Named (n : Option String) (m : Memory) : Prop := ∀ name, n = some name → G.name m name

/-- The variable, if there is one, has a name and a target that the run may come by. -/
abbrev Seen (found : Option (VarId × Variable)) (m : Memory) : Prop :=
  ∀ id v, found = some (id, v) → G.name m v.name ∧ G.Target v.target m

/-- What is passed for a parameter, if anything, is what the run may come by. -/
abbrev Passed (x : Option Actual) (m : Memory) : Prop :=
  ∀ y, x = some y → G.Target y.target m ∧ G.Named y.name m

/-- What is passed for the parameters is what the run may come by. -/
abbrev Actuals (xs : List Actual) (m : Memory) : Prop :=
  ∀ x ∈ xs, G.Target x.target m ∧ G.Named x.name m

/-- What is known of a called function keeps to the guard. -/
structure Served (m : Memory) (f : Function) : Prop where
  uses : ∀ n, n ∈ f.reads.toList ∨ n ∈ f.writes.toList →
    starts (ownerStart f.name.plain) n = false → G.name m n
  ends : ∀ e ∈ f.pointerEnds.entries, G.address m (e.1 : Nat) ∧ G.Target e.2 m

/-- The steps that look things up keep the guard. -/
structure Finds (s : Scope) : Prop where
  extend : ∀ {m n rest}, G.name m n → PathEnd rest → G.name m (n ++ rest)
  spelled : ∀ {m i}, G.node i → i.kind = .declRef → G.name m i.spelling
  target : ∀ {w}, G.state w → ∀ key, G.Target (w.pointers.get? key).join w.memory
  addressOf : ∀ {m n}, G.name m n → G.Passes m G.Found (addressOf s n)
  addressIn : ∀ {m n}, G.name m n → G.Passes m G.Found (addressIn s n)
  variableAt : ∀ {m a}, G.address m a → G.Passes m G.Seen (variableAt a)
  pointerKey : ∀ {m n}, G.name m n → G.Passes m G.Named (pointerKey s n)
  share : ∀ {m} n, G.PassesAny m (share s n)

/-- The steps that note uses keep the guard, too. -/
structure Marks (s : Scope) (U : Use → Prop) : Prop extends G.Finds s where
  mark : ∀ {m a use}, U use → G.address m a → G.PassesAny m (mark s use a)
  markItself : ∀ {m a use}, U use → G.address m a → G.PassesAny m (markItself s use a)

/-- The steps that a walk is put together from keep the guard, where uses of some kinds are noted:
reads, and where a node assigns or a called function writes, uses of all kinds. -/
structure Sound (calls : CallIndex) (s : Scope) (U : Use → Prop) : Prop extends G.Marks s U where
  reads : U .read
  assigns : ∀ {i}, G.node i → i.Assigns → ∀ use, U use
  callee : ∀ {w i id f}, G.node i → i.kind = .call → ¬ (calleeName i).isEmpty →
    calls.get? (.text (calleeName i)) = some id → G.state w →
    w.functions[id]? = some f → G.Served w.memory f ∧ (f.writes.toList ≠ [] → U .write)
  repoint : ∀ {m key t}, G.name m key → G.Target t m → G.PassesAny m (repoint s key t)
  declared : ∀ {m i}, G.node i → i.kind = .varDecl → i.spelling ≠ "" →
    G.Passes m (fun t m' => t.shape = .pointer → G.name m' (ownedName s.name i.spelling))
      (declared s i)

variable {G} {α β : Type} {m m' : Memory}

/-! ## The calculus -/

namespace Passes

variable {V : α → Memory → Prop} {U : β → Memory → Prop} {x : WalkM α} {f : α → WalkM β}

theorem bind (hx : G.Passes m V x) (hf : ∀ a m', G.later m m' → V a m' → G.Passes m' U (f a)) :
    G.Passes m U (x >>= f) := by
  refine ⟨fun w hw hl => Ends.bind ((hx.ends w hw hl).mono ?_ fun _ _ he => he)⟩
  rintro a w₁ ⟨hw₁, hl₁, hv⟩
  refine ((hf a _ (G.trans hl hl₁) hv).ends w₁ hw₁ (G.refl _)).mono ?_ fun _ _ he => he
  exact fun _ _ h => ⟨h.1, G.trans hl₁ h.2.1, h.2.2⟩

theorem mono {V' : α → Memory → Prop} (h : G.Passes m V x)
    (hv : ∀ a m', G.later m m' → V a m' → V' a m') : G.Passes m V' x :=
  ⟨fun w hw hl => (h.ends w hw hl).mono
    (fun a _ ha => ⟨ha.1, ha.2.1, hv a _ (G.trans hl ha.2.1) ha.2.2⟩) fun _ _ he => he⟩

/-- Steps that may be taken from a memory on may be taken from a later one on. -/
theorem after (h : G.Passes m V x) (hl : G.later m m') : G.Passes m' V x :=
  ⟨fun w hw hl' => h.ends w hw (G.trans hl hl')⟩

theorem pure {a : α} (h : ∀ m', G.later m m' → V a m') : G.Passes m V (pure a : WalkM α) :=
  ⟨fun _ hw hl => Ends.pure ⟨hw, G.refl _, h _ hl⟩⟩

theorem done {a : α} : G.PassesAny m (Pure.pure a : WalkM α) := pure fun _ _ => trivial

theorem get_bind {f : Walk → WalkM β}
    (h : ∀ w, G.state w → G.later m w.memory → G.Passes w.memory U (f w)) :
    G.Passes m U (get >>= f) :=
  ⟨fun w hw hl => Ends.bind_ok rfl ((h w hw hl).ends w hw (G.refl _))⟩

theorem forM {γ : Type} {f : γ → WalkM PUnit} : ∀ {as : List γ} {m : Memory},
    (∀ a ∈ as, G.PassesAny m (f a)) → G.PassesAny m (as.forM f)
  | [], _, _ => done
  | a :: _, _, h =>
      bind (h a (List.mem_cons_self ..)) fun _ _ hl _ =>
        forM fun b hb => (h b (List.mem_cons_of_mem a hb)).after hl

end Passes

/-! ## Results of steps -/

section Results

variable (hl : G.later m m')

include hl

theorem Target.later {t : Option Int} (h : G.Target t m) : G.Target t m' :=
  fun a ha => G.later_address (h a ha) hl

theorem Named.later {n : Option String} (h : G.Named n m) : G.Named n m' :=
  fun name hn => G.later_name (h name hn) hl

theorem Actuals.later {xs : List Actual} (h : G.Actuals xs m) : G.Actuals xs m' :=
  fun x hx => ⟨Target.later hl (h x hx).1, Named.later hl (h x hx).2⟩

theorem Served.later {f : Function} (h : G.Served m f) : G.Served m' f :=
  ⟨fun n hn hs => G.later_name (h.uses n hn hs) hl,
    fun e he => ⟨G.later_address (h.ends e he).1 hl, Target.later hl (h.ends e he).2⟩⟩

end Results

theorem target_none : G.Target none m := by
  rintro _ ⟨⟩

theorem named_none : G.Named none m := by
  rintro _ ⟨⟩

theorem named_some {name : String} (h : G.name m name) : G.Named (some name) m :=
  fun _ hn => Option.some.inj hn ▸ h

variable {n : Option String} {p : String → Bool} {x : Option Actual}

theorem Named.of_filter (h : G.Named n m) {name : String}
    (hn : n.filter p = some name) : G.name m name :=
  h name (Option.filter_eq_some_iff.mp hn).1

theorem Named.filter (h : G.Named n m) :
    G.Named (n.filter p) m := fun _ hn => h.of_filter hn

theorem Named.orElse {b : Option String} (h : G.Named n m) (hb : G.Named b m) :
    G.Named (n <|> b) m := by
  cases n with
  | none => exact hb
  | some _ => exact h

theorem Seen.remembered {known : Option (VarId × Variable)} (h : G.Seen known m) :
    G.Target (remembered known) m := by
  intro a ha
  cases known with
  | none => cases ha
  | some known =>
    unfold Walk.remembered at ha
    dsimp only at ha
    split at ha
    · exact (h _ _ rfl).2 a (Option.filter_eq_some_iff.mp ha).1
    · cases ha

theorem Actuals.put {x : Actual} (hx : G.Target x.target m ∧ G.Named x.name m) :
    ∀ {xs : List Actual}, G.Actuals xs m → G.Actuals (putActual x xs) m
  | [], _ => fun _ hy => List.mem_singleton.mp hy ▸ hx
  | z :: zs, h => by
    intro y hy
    unfold putActual at hy
    split at hy
    · rcases List.mem_cons.mp hy with rfl | hy
      · exact hx
      · exact h y (List.mem_cons_of_mem z hy)
    · rcases List.mem_cons.mp hy with rfl | hy
      · exact h y (List.mem_cons_self ..)
      · exact Actuals.put hx (fun y hy => h y (List.mem_cons_of_mem z hy)) y hy

theorem Actuals.actualFor? {xs : List Actual} (h : G.Actuals xs m) (param : String) :
    G.Passed (actualFor? xs param) m :=
  fun x hx => h x (List.mem_of_find?_eq_some hx)

theorem Passed.target (h : G.Passed x m) : G.Target (x.bind Actual.target) m := by
  intro a ha
  obtain ⟨y, hy, ha⟩ := Option.bind_eq_some_iff.mp ha
  exact (h y hy).1 a ha

theorem Passed.name (h : G.Passed x m) : G.Named (x.bind Actual.name) m := by
  intro n hn
  obtain ⟨y, hy, hn⟩ := Option.bind_eq_some_iff.mp hn
  exact (h y hy).2 n hn

end Guard

end Walk

end Footprint
