import Footprint.Proofs.Dereference
import Footprint.Proofs.StraightLine.Statements

/-!
# Initialising and assigning a local pointer

A local pointer with an initialiser is compared with the same pointer declared
without one and assigned afterwards.  If the type of the pointer is written as a
pointer type, the two do the same, fault or not.

If it is written as a name for a pointer type, they do not.  The declaration then
only reads its initialiser, and the pointer is left without a target.
-/

namespace Footprint

open StraightLine (IsName Inert ownedName_ne_empty ownedName_plain)

/-! ## Trees -/

/-- The tree declares a variable of the type, and has the given children. -/
inductive Node.Declares (x : String) (t : NodeType) (cs : List Node) : Node → Prop
  | mk {i : NodeInfo} {d : Option Node} :
      i.kind = .varDecl → i.spelling = x → i.type = some t → Declares x t cs (.mk i cs d)

/-- The tree names a type that is used in a declaration. -/
structure Node.NamesType (n : Node) : Prop where
  kind : n.kind = .typeRef
  inert : Inert n

/-- The tree is the name of a variable. -/
inductive Node.Names (x : String) : Node → Prop
  | mk {i : NodeInfo} {cs : List Node} {d : Option Node} :
      i.kind = .declRef → i.spelling = x → Names x (.mk i cs d)

/-! ## A declared variable has its name -/

namespace Memory

variable {T : TypeTable} {P : Slot → Prop} {D : Prop} {m m' : Memory}

/-- Parts do not take names that are not written like names of parts. -/
theorem Changes.address_whole (h : Changes T P D m m') {n : String} (hn : ¬ HasSteps n) :
    m'.names.get? n = m.names.get? n := by
  induction h with
  | refl => rfl
  | tail _ hchange ih =>
    rw [← ih]
    cases hchange with
    | note => rfl
    | @add a b slot type =>
      show (Table.set _ _ _).get? n = _
      rw [Table.get?_set, if_neg]
      · rfl
      · rintro rfl
        exact hn (hasSteps_suffix _ slot)

/-- A variable that is declared and laid out has its name, and is what it was declared to be. -/
theorem allocateNew_at {v : Variable} (hl : Linked none m) (hparts : v.parts = {})
    (hname : ¬ HasSteps v.name) {a : Nat}
    (h : allocateRoot T m.vars.size { m with vars := m.vars.push v } = .ok a m') :
    Linked none m' ∧ ∃ id, m'.At v.name m.next id ∧ (m'.varOf id).isPointer = v.isPointer ∧
      (m'.varOf id).target = v.target := by
  have hid : m.vars.size < ({ m with vars := m.vars.push v } : Memory).vars.size := by simp
  have hdeclared : Linked none { m with vars := m.vars.push v } := hl.declare hparts
  have hvar : ({ m with vars := m.vars.push v } : Memory).varOf m.vars.size = v := by
    rw [varOf_push, if_pos rfl]
  have hroot := hdeclared.withRoot hid
  obtain ⟨_, m₁, hcompletes, _, _, rfl⟩ :=
    (allocateRoot_completes (admits_all T) hdeclared hid False.elim).value _ _ h
  have hsame := (hcompletes.changes.var hroot hid).same
  have hvar₁ : (withRoot { m with vars := m.vars.push v } m.vars.size).varOf m.vars.size = v := hvar
  rw [hvar₁] at hsame
  have hlinked := (hcompletes.changes.after hroot).linked
  refine ⟨hlinked.setVar_same (fun _ => rfl) fun _ => rfl, m.vars.size, ⟨?_, ?_⟩, ?_, ?_⟩
  · refine (hcompletes.changes.address_whole hname).trans ?_
    show (Table.set _ _ _).get? v.name = _
    rw [hvar, Table.get?_set, if_pos rfl]
  · have hblock := hcompletes.changes.block (block?_withRoot hdeclared m.vars.size)
    show (m₁.block? m.next).map Block.var = _
    rw [hblock]
    rfl
  all_goals
    rw [varOf_setVar]
    split
    · rw [hsame]
    · rw [hsame]

end Memory

namespace Walk

variable {calls : CallIndex} {s : Scope} {w w₁ : Walk} {x : String} {t : NodeType}

/-- The name is free for a local. -/
structure Free (s : Scope) (x : String) (w : Walk) : Prop where
  linked : Memory.Linked none w.memory
  scope : IsName s.name
  name : IsName x
  absent : w.memory.address? (ownedName s.name x) = none

/-- The local has a block, and is a pointer that remembers no target. -/
structure Declared (s : Scope) (x : String) (w : Walk) : Prop where
  linked : Memory.Linked none w.memory
  found : ∃ a id, w.memory.At (ownedName s.name x) a id ∧
    (w.memory.varOf id).isPointer = true ∧ (w.memory.varOf id).target = none

theorem exists_of_onMemory {α : Type} {y : MemM α} {a : α} (h : onMemory y w = .ok a w₁) :
    ∃ m, y w.memory = .ok a m ∧ w₁ = { w with memory := m } :=
  ok_of_zoom h

theorem not_hasSteps_ownedName {f x : String} (hf : IsName f) (hx : IsName x) :
    ¬ HasSteps (ownedName f x) := by
  rintro (h | h)
  · exact (ownedName_plain hf hx _ h).1 rfl
  · exact (ownedName_plain hf hx _ h).2.1 rfl

/-- A new local of a pointer type is declared as a pointer. -/
theorem Free.declareLocal (hw : w.Free s x) (ht : t.canonical = .pointer) {i : NodeInfo}
    (hx : i.spelling = x) (hi : i.type = some t) {u : Unit} (h : declareLocal s i w = .ok u w₁) :
    w₁.Declared s x ∧ w₁.pointers = w.pointers := by
  subst hx
  have hnone := StraightLine.addressOf_none (s := s) (ownedName_ne_empty s.name i.spelling)
    (ownedName_plain hw.scope hw.name) hw.absent
  have htype : typeOf i w = .ok t w := by rw [typeOf, hi]; rfl
  have h := (bind_of_ok hnone).symm.trans h
  have h := (bind_of_ok htype).symm.trans h
  obtain ⟨id, w₂, hdeclare, h⟩ := exists_of_bind h
  cases hdeclare
  obtain ⟨a, w₃, hallocate, h⟩ := exists_of_bind h
  cases h
  obtain ⟨m, hm, rfl⟩ := exists_of_onMemory hallocate
  obtain ⟨hlinked, id, hat, hpointer, htarget⟩ := Memory.allocateNew_at hw.linked rfl
    (not_hasSteps_ownedName hw.scope hw.name) hm
  exact ⟨⟨hlinked, _, id, hat, by rw [hpointer]; exact decide_eq_true ht, htarget⟩, rfl⟩

/-! ## What declarations and assignments do -/

/-- The pointer of a key is given the target of an expression. -/
def aimAt (s : Scope) (key : String) (e : Node) : WalkM Unit := do
  repoint s key (← pointerTarget s e)

variable (calls s) in
theorem walk_declares {cs : List Node} {n : Node} (hn : n.Declares x t cs) (hx : x ≠ "") :
    ∃ i : NodeInfo, i.spelling = x ∧ i.type = some t ∧ walk calls s n = (do
      declareLocal s i
      if t.shape = .pointer then do
        setTarget (ownedName s.name x) none
        walkInit calls s (ownedName s.name x) cs
      else (walkEach calls s cs).forM Prod.snd) := by
  cases hn with
  | @mk i d hkind hname htype =>
    subst hname
    refine ⟨i, rfl, htype, ?_⟩
    have hempty : ¬ i.spelling.isEmpty = true := by simpa using hx
    unfold walk
    simp only [hkind, if_neg hempty, typeOf, htype, pure_bind]

variable {refs : List Node} {e bare : Node}

variable (calls s) in
theorem walkInit_refs (hrefs : ∀ r ∈ refs, r.NamesType) (key : String)
    (cs : List Node) : walkInit calls s key (refs ++ cs) = walkInit calls s key cs := by
  induction refs with
  | nil => rfl
  | cons r refs ih =>
    obtain ⟨i, ds, d⟩ := r
    have hkind : i.kind = .typeRef := (hrefs _ (List.mem_cons_self ..)).kind
    rw [List.cons_append, walkInit, if_pos hkind,
      ih fun r hr => hrefs r (List.mem_cons_of_mem _ hr)]

theorem walkInit_expr (he : e.kind ≠ .typeRef) (key : String) :
    walkInit calls s key [e] = (do aimAt s key e; walk calls s e) := by
  obtain ⟨i, cs, d⟩ := e
  have he : i.kind ≠ .typeRef := he
  rw [walkInit, if_neg he, aimAt, bind_assoc]

variable (calls s) in
theorem walkEach_refs (hrefs : ∀ r ∈ refs, r.NamesType) (cs : List Node) :
    (walkEach calls s (refs ++ cs)).forM Prod.snd = (walkEach calls s cs).forM Prod.snd := by
  induction refs with
  | nil => rfl
  | cons r refs ih =>
    obtain ⟨i, ds, d⟩ := r
    have hinert := (hrefs _ (List.mem_cons_self ..)).inert
    have hnothing : walk calls s (.mk i ds d) = pure ⟨⟩ := by
      funext w
      have hruns : Runs (walk calls s (.mk i ds d)) w fun _ w' => w' = w :=
        StraightLine.walk_inert hinert w
      obtain ⟨u, w', h, rfl⟩ := hruns.exists_ok
      exact h
    rw [List.cons_append, walkEach, hnothing]
    exact ih fun r hr => hrefs r (List.mem_cons_of_mem _ hr)

theorem pointerKey_declared (hw : w.Declared s x) (hx : x ≠ "") :
    pointerKey s x w = .ok (some (ownedName s.name x)) w := by
  obtain ⟨a, id, hat, hpointer, _⟩ := hw.found
  have hown := StraightLine.pointerNamed_at (s := s) hw.linked (ownedName_ne_empty s.name x) hat
  rw [hpointer] at hown
  exact StraightLine.pointerKey_own hx hown

/-- An assignment to a declared pointer gives it the target of the right side, and reads that. -/
theorem walk_assigns_declared (hw : w.Declared s x) (hx : x ≠ "") {left a : Node}
    (hleft : left.Names x) (ha : left.Assigns e a) :
    walk calls s a w = (do aimAt s (ownedName s.name x) e; walk calls s e) w := by
  cases hleft with
  | @mk i cs d hkind hname =>
    subst hname
    cases ha with
    | mk hassign hop =>
      have hbehind : pointerBehindLeft s (.mk i cs d) = pure none :=
        if_neg (by simp [Node.kind, Node.info, hkind])
      have hassigned : assignedPointer s (.mk i cs d) w =
          .ok (some (ownedName s.name i.spelling)) w := by
        unfold assignedPointer
        rw [hbehind, StraightLine.accessName_declRef hkind]
        exact pointerKey_declared hw hx
      rw [StraightLine.walk_assign hassign hop, bind_of_ok hassigned, aimAt, bind_assoc]

variable (calls s) in
/-- The initialiser of a pointer is evaluated after its declaration.  If the type is written as a
pointer type, the pointer is first given its target. -/
theorem walk_declares_init (hrefs : ∀ r ∈ refs, r.NamesType) {n : Node}
    (he : e.kind ≠ .typeRef) (hx : x ≠ "") (hn : n.Declares x t (refs ++ [e]))
    (hbare : bare.Declares x t refs) :
    walk calls s n = (do
      walk calls s bare
      if t.shape = .pointer then aimAt s (ownedName s.name x) e
      walk calls s e) := by
  obtain ⟨i, hname, htype, hwalk⟩ := walk_declares calls s hn hx
  obtain ⟨j, hname', htype', hwalk'⟩ := walk_declares calls s hbare hx
  have hsame : declareLocal s i = declareLocal s j := by
    unfold declareLocal typeOf
    rw [hname, hname', htype, htype']
  have hinit := walkInit_refs calls s hrefs (ownedName s.name x) []
  have heach := walkEach_refs calls s hrefs []
  rw [List.append_nil] at hinit heach
  rw [hwalk, hwalk', hsame]
  by_cases hshape : t.shape = .pointer
  · simp only [if_pos hshape, bind_assoc, hinit, walkInit_refs calls s hrefs, walkInit_expr he]
    rfl
  · simp only [if_neg hshape, bind_assoc, heach, walkEach_refs calls s hrefs]
    obtain ⟨k, cs, d⟩ := e
    refine bind_congr fun _ => ?_
    exact bind_pure (walk calls s (.mk k cs d))

/-- A new pointer is declared, and has no target. -/
theorem Free.declares (hw : w.Free s x) (ht : t.canonical = .pointer)
    (hrefs : ∀ r ∈ refs, r.NamesType) (hbare : bare.Declares x t refs) {u : Unit}
    (h : walk calls s bare w = .ok u w₁) :
    w₁.Declared s x ∧
      ((t.shape ≠ .pointer → (w.pointers.get? (ownedName s.name x)).join = none) →
        (w₁.pointers.get? (ownedName s.name x)).join = none) := by
  obtain ⟨i, hname, htype, hwalk⟩ := walk_declares calls s hbare hw.name.1
  have hinit := walkInit_refs calls s hrefs (ownedName s.name x) []
  have heach := walkEach_refs calls s hrefs []
  rw [List.append_nil] at hinit heach
  rw [hwalk, hinit, heach] at h
  obtain ⟨_, w₂, hlocal, h⟩ := exists_of_bind h
  obtain ⟨hdeclared, hpointers⟩ := hw.declareLocal ht hname htype hlocal
  split at h
  · cases h
    refine ⟨⟨hdeclared.linked, hdeclared.found⟩, fun _ => ?_⟩
    show ((w₂.pointers.set _ none).get? _).join = none
    rw [Table.get?_set, if_pos rfl]
    rfl
  · next hshape =>
    cases h
    exact ⟨hdeclared, fun hnone => by rw [hpointers, hnone hshape]⟩

/-! ## Targets -/

theorem targetOf_declared (hw : w.Declared s x)
    (hnone : (w.pointers.get? (ownedName s.name x)).join = none) :
    targetOf s (ownedName s.name x) w = .ok none w := by
  obtain ⟨a, id, hat, _, htarget⟩ := hw.found
  have hvar := StraightLine.variableOf_at (s := s) hw.linked (ownedName_ne_empty s.name x) hat
  rw [StraightLine.targetOf_eq (ownedName_ne_empty s.name x), hnone]
  refine (bind_of_ok hvar).trans ?_
  simp [remembered, Variable.liveTarget, htarget]
  rfl

theorem keeps_pointers {α : Type} (table : Table String (Option Int)) (y : MemM α) :
    Keeps (fun w : Walk => w.pointers = table) (onMemory y) :=
  .zoom y fun _ _ h => h

/-- A pointer that is made to point to a target has it in the table. -/
theorem pointers_repoint (key : String) (target : Option Int) :
    Ends (repoint s key target) w (fun _ w' => w'.pointers = w.pointers.set key target)
      fun _ _ => True := by
  have hvar : Keeps (fun w' : Walk => w'.pointers = w.pointers) (variableOf s key) := by
    refine .bind (keeps_pointers _ _) fun a => ?_
    cases a with
    | some a => exact keeps_pointers _ _
    | none => exact .pure _
  have hdrop : ∀ t, Keeps (fun w' : Walk => w'.pointers = w.pointers) (dropRef key t) := by
    intro t
    cases t with
    | some a => exact keeps_pointers _ _
    | none => exact .pure _
  have hremember : ∀ (table : Table String (Option Int)) known,
      Keeps (fun w' : Walk => w'.pointers = table) (remember target known) := by
    intro table known
    unfold remember
    split
    · split
      · exact keeps_pointers _ _
      · exact .pure _
    · exact .pure _
  have hnote : ∀ table : Table String (Option Int),
      Keeps (fun w' : Walk => w'.pointers = table) (noteRef key target) := by
    intro table
    cases target with
    | some a => exact keeps_pointers _ _
    | none => exact .pure _
  refine Ends.bind_ok rfl (hvar.ends_bind_value rfl fun known w₁ h₁ => ?_)
  refine (hdrop _).ends_bind_value h₁ fun _ w₂ h₂ => Ends.bind (Ends.modify ?_)
  refine (hremember (w.pointers.set key target) known).ends_bind_value ?_ fun _ w₃ h₃ => ?_
  · rw [← h₂]
  · exact ((hnote _).ends w₃ h₃).mono (fun _ _ h => h) fun _ _ _ => trivial

/-- A local pointer with an initialiser that is no type is like the declaration of the pointer with
the assignment of the initialiser after it, if its type is written as a pointer type.  If not, the
declaration only reads the initialiser, and the pointer has no target then, where the assignment
gives it that of the initialiser. -/
theorem walk_initialised {refs : List Node} {e n bare left a : Node} (hw : w.Free s x)
    (hpointer : t.canonical = .pointer) (hrefs : ∀ r ∈ refs, r.NamesType) (he : e.kind ≠ .typeRef)
    (hn : n.Declares x t (refs ++ [e])) (hbare : bare.Declares x t refs) (hleft : left.Names x)
    (ha : left.Assigns e a) :
    (t.shape = .pointer →
      walk calls s n w = (do walk calls s bare; walk calls s a) w) ∧
    (t.shape ≠ .pointer →
      walk calls s n w = (do walk calls s bare; walk calls s e) w ∧
      (do walk calls s bare; walk calls s a) w =
        (do walk calls s bare; aimAt s (ownedName s.name x) e; walk calls s e) w ∧
      ((w.pointers.get? (ownedName s.name x)).join = none → ∀ w₁,
        walk calls s bare w = .ok ⟨⟩ w₁ → targetOf s (ownedName s.name x) w₁ = .ok none w₁ ∧
        ∀ b w₂ w₃, pointerTarget s e w₁ = .ok (some b) w₂ →
          aimAt s (ownedName s.name x) e w₁ = .ok ⟨⟩ w₃ →
            targetOf s (ownedName s.name x) w₃ = .ok (some b) w₃)) := by
  have hassign : (do walk calls s bare; walk calls s a) w =
      (do walk calls s bare; aimAt s (ownedName s.name x) e; walk calls s e) w := by
    cases hrun : walk calls s bare w with
    | error f w₁ => rw [bind_of_error hrun, bind_of_error hrun]
    | ok u w₁ =>
      rw [bind_of_ok hrun, bind_of_ok hrun]
      exact walk_assigns_declared (hw.declares hpointer hrefs hbare hrun).1 hw.name.1 hleft ha
  have hinit := walk_declares_init calls s hrefs he hw.name.1 hn hbare
  refine ⟨fun hshape => ?_, fun hshape => ⟨?_, hassign, fun hnone w₁ hrun => ?_⟩⟩
  · rw [hassign, hinit]
    simp only [if_pos hshape]
  · rw [hinit]
    simp only [if_neg hshape]
  · obtain ⟨hdeclared, hkept⟩ := hw.declares hpointer hrefs hbare hrun
    refine ⟨targetOf_declared hdeclared (hkept fun _ => hnone), fun b w₂ w₃ htarget haim => ?_⟩
    have haim := (bind_of_ok htarget).symm.trans haim
    rw [StraightLine.targetOf_eq (ownedName_ne_empty _ _),
      (pointers_repoint _ _).value _ _ haim, Table.get?_set, if_pos rfl]
    rfl

/-! ## A pointer type with a name of its own -/

/-- The type `int *`. -/
def pointerType : NodeType := { spelling := "int *", shape := .pointer, canonical := .pointer }

/-- The type `link`, a name for `int *`. -/
def linkType : NodeType := { spelling := "link", shape := .other, canonical := .pointer }

/-- The tree of the name of the type `link`. -/
def linkName : Node := .mk { kind := .typeRef, spelling := "link" } [] none

/-- The tree of a local `p` of a type. -/
def localP (t : NodeType) (children : List Node) : Node :=
  .mk { kind := .varDecl, spelling := "p", type := some t } children none

/-- A file with `int x`, a type `link` for pointers to `int`, and a function `f` with a body. -/
def linkFile (body : List Node) : Files :=
  fileOf [intVar "x", typedefOf "link" "int *", definedAs "f" body]

/-- The project before `f` is analysed. -/
def linkStart? (body : List Node) : Option Project :=
  after? (Project.prepare (linkFile body) ((linkFile body).absolute "p") {})

/-- The scope of `f` in a project. -/
def linkScope (p : Project) : Scope := ⟨p.types, 0, "f"⟩

theorem walk_initialised_pointerType :
    ∃ p w', linkStart? [localP pointerType [addressOfX]] = some p ∧
      (entering p.analysis).Free (linkScope p) "p" ∧
      (localP pointerType [addressOfX]).Declares "p" pointerType ([] ++ [addressOfX]) ∧
      (named "p").Assigns addressOfX aim ∧
      walk p.analysis.index (linkScope p) (localP pointerType [addressOfX])
        (entering p.analysis) = .ok ⟨⟩ w' ∧
      (do walk p.analysis.index (linkScope p) (localP pointerType [])
          walk p.analysis.index (linkScope p) aim) (entering p.analysis) = .ok ⟨⟩ w' ∧
      (w'.pointers.get? "<f>p").join = some 1 := by
  have hrun : ((linkStart? [localP pointerType [addressOfX]]).bind fun p =>
      (after? (walk p.analysis.index (linkScope p) (localP pointerType [addressOfX])
        (entering p.analysis))).map fun w' =>
        ((w'.pointers.get? "<f>p").join, p.analysis.memory.address? "<f>p")) =
      some (some 1, none) := by decide +kernel
  obtain ⟨p, hp, hr⟩ := Option.bind_eq_some_iff.mp hrun
  obtain ⟨w', hwalk, hvalues⟩ := ok_of_map hr
  simp only [Prod.mk.injEq] at hvalues
  have hreached : Project.Reached (linkFile [localP pointerType [addressOfX]]) "p" p :=
    .read (ok_of_after? hp)
  have hfree : (entering p.analysis).Free (linkScope p) "p" :=
    ⟨hreached.aimed.analysis.memory.linked, (by decide : IsName "f"), by decide, hvalues.2⟩
  have hassigns : (named "p").Assigns addressOfX aim := .mk rfl (by decide)
  have hsame : walk p.analysis.index (linkScope p) (localP pointerType [addressOfX])
      (entering p.analysis) = (do
        walk p.analysis.index (linkScope p) (localP pointerType [])
        walk p.analysis.index (linkScope p) aim) (entering p.analysis) :=
    (walk_initialised hfree rfl (by simp) (by decide)
      (.mk rfl rfl rfl : (localP pointerType [addressOfX]).Declares "p" pointerType
        ([] ++ [addressOfX])) (.mk rfl rfl rfl) (.mk rfl rfl) hassigns).1 rfl
  exact ⟨p, w', hp, hfree, .mk rfl rfl rfl, hassigns, hwalk,
    hsame.symm.trans hwalk, hvalues.1⟩

/-- A local `link p = &x` has no target, so that a write to `*p` is lost.  If `p` is declared and
then assigned, `x` is written. -/
theorem initialised_target_lost :
    ∃ p p' q q' f g,
      Project.prepare (linkFile [localP linkType [linkName, addressOfX], setBehindP]) "/p" {} =
        .ok ⟨⟩ p ∧ Project.analyse 0 p = .ok ⟨⟩ p' ∧
      Project.prepare (linkFile [localP linkType [linkName], aim, setBehindP]) "/p" {} =
        .ok ⟨⟩ q ∧ Project.analyse 0 q = .ok ⟨⟩ q' ∧
      p'.record? 0 = some f ∧ q'.record? 0 = some g ∧
      f.writes = {} ∧ f.pointerEnds.entries = [] ∧
      g.writes = ⟨["x"]⟩ ∧ g.pointerEnds.entries = [(2, some 1)] := by
  have hinitialised :
      Project.firstRun? (linkFile [localP linkType [linkName, addressOfX], setBehindP])
      (fun _ _ f => (f.writes, f.pointerEnds.entries)) = some ({}, []) := by decide +kernel
  have hassigned : Project.firstRun? (linkFile [localP linkType [linkName], aim, setBehindP])
      (fun _ _ f => (f.writes, f.pointerEnds.entries)) = some (⟨["x"]⟩, [(2, some 1)]) := by
    decide +kernel
  obtain ⟨p, p', f, hp, hp', hf, hvalues⟩ := Project.exists_of_firstRun? hinitialised
  obtain ⟨q, q', g, hq, hq', hg, hvalues'⟩ := Project.exists_of_firstRun? hassigned
  obtain ⟨hwrites, hends⟩ := Prod.mk.inj hvalues
  obtain ⟨hwrites', hends'⟩ := Prod.mk.inj hvalues'
  exact ⟨p, p', q, q', f, g, hp, hp', hq, hq', hf, hg, hwrites, hends, hwrites', hends'⟩

end Walk

end Footprint
