import Footprint.Proofs.Memory.Changes
import Footprint.Proofs.Types.Sized

/-!
# Sizes and layouts

The size of a type and the layout of a variable both go down the type, in two
ways of their own.  A size follows typedefs to the end, takes off parentheses and
wants clean names.  A layout resolves one typedef at a time and also finds a
struct by its bare tag.  So there are types that have a size and no layout, such
as a typedef of a typedef, and types that have a layout and no size.

A type is *plain* if the two read it alike.  Where all types on the way down are
plain, a variable of a type can be laid out exactly if the type has a size, that
is, if the type is formed.  The
layout looks for the name of an element before it lays it out, so the name of the
variable has to be free.
-/

namespace Footprint

open Footprint.TypeName TypeTable

/-! ## Plain types -/

namespace TypeTable

/-- Sizes and layouts read the type alike: it stands in no parentheses, a typedef has a clean name
and does not name another typedef, and a struct has a clean full name and members with different
plain names. -/
structure PlainAt (T : TypeTable) (n : String) : Prop where
  bare : inParens n = false
  named : ∀ w, T.aliases.get? n = some w → isClean n = true ∧
    normalize w = w ∧ T.aliases.get? w = none ∧ (T.isBasic n = true → T.isBasic w = true)
  record : T.aliases.get? n = none → T.isBasic n = false → endsInBracket n = false →
    ∀ r, T.recordFor? n = some r → isClean n = true ∧ T.structs.get? n = some r ∧
      r.memberTypes.length ≤ r.memberNames.length ∧ r.memberNames.Nodup ∧
      ∀ name ∈ r.memberNames, '.' ∉ name.toList ∧ '[' ∉ name.toList

instance (T : TypeTable) (n : String) : Decidable (T.PlainAt n) :=
  decidable_of_iff (inParens n = false ∧
    (∀ w ∈ (T.aliases.get? n).toList, isClean n = true ∧ normalize w = w ∧
      T.aliases.get? w = none ∧ (T.isBasic n = true → T.isBasic w = true)) ∧
    (T.aliases.get? n = none → T.isBasic n = false → endsInBracket n = false →
      ∀ r ∈ (T.recordFor? n).toList, isClean n = true ∧ T.structs.get? n = some r ∧
        r.memberTypes.length ≤ r.memberNames.length ∧ r.memberNames.Nodup ∧
        ∀ name ∈ r.memberNames, '.' ∉ name.toList ∧ '[' ∉ name.toList))
    ⟨fun ⟨hb, hn, hr⟩ => ⟨hb, fun w hw => hn w (by simpa using hw),
        fun ha hb' hc r h => hr ha hb' hc r (by simpa using h)⟩,
      fun h => ⟨h.bare, fun w hw => h.named w (by simpa using hw),
        fun ha hb hc r hr => h.record ha hb hc r (by simpa using hr)⟩⟩

/-- All types on the way down are plain. -/
def PlainFrom (T : TypeTable) (n : String) : Prop :=
  ∀ y, Relation.ReflTransGen T.MadeOf n y → T.PlainAt y

variable {T : TypeTable} {n x y d : String}

theorem PlainFrom.bare (h : T.PlainFrom n) : T.Bare n := fun y hy => (h y hy).bare

theorem PlainFrom.down (h : T.PlainFrom n) (hy : Relation.ReflTransGen T.MadeOf n y) :
    T.PlainFrom y :=
  fun z hz => h z (hy.trans hz)

/-- Types in a closed list of plain types have only plain types below them. -/
theorem plainFrom_of_closed (types : List String) (hn : n ∈ types)
    (hclosed : ∀ x ∈ types, ∀ y ∈ T.made x, y ∈ types) (hplain : ∀ x ∈ types, T.PlainAt x) :
    T.PlainFrom n := by
  intro y hy
  refine hplain y ?_
  induction hy with
  | refl => exact hn
  | tail _ hstep ih => exact hclosed _ ih _ hstep

/-- Typedefs that name normal forms which are no typedefs are resolved in one step. -/
theorem normal_decode (h : ∀ w, T.aliases.get? (normalize x) = some w →
    normalize w = w ∧ T.aliases.get? w = none) :
    normalize (T.decode x) = T.decode x ∧ T.aliases.get? (T.decode x) = none := by
  unfold decode
  dsimp only
  cases hw : T.aliases.get? (normalize x) with
  | none => exact ⟨normalize_normalize x, hw⟩
  | some w => exact h w hw

section Decode

variable (h : T.PlainAt (normalize x))

include h

theorem PlainAt.decode_normal :
    normalize (T.decode x) = T.decode x ∧ T.aliases.get? (T.decode x) = none :=
  normal_decode fun w hw => ⟨(h.named w hw).2.1, (h.named w hw).2.2.1⟩

theorem PlainAt.form_alias (hbasic : T.isBasic x = false) {w : String}
    (hw : T.aliases.get? (normalize x) = some w) : T.form x = .typedef w := by
  have hclean := (h.named w hw).1
  rw [← form_normalize, form_name (normalize_normalize x)
    ((T.isBasic_normalize x).trans hbasic) (shape_of_isClean hclean).2.1 h.bare, hclean, hw]
  rfl

/-- Only a basic type is not reached by resolving a typedef. -/
theorem PlainAt.down_decode (hbasic : T.isBasic (T.decode x) = false) :
    Relation.ReflTransGen T.MadeOf (normalize x) (T.decode x) := by
  unfold decode at hbasic ⊢
  dsimp only at hbasic ⊢
  cases hw : T.aliases.get? (normalize x) with
  | none => exact .refl
  | some w =>
    rw [hw, Option.getD_some] at hbasic
    obtain ⟨_, hnormal, _, hbuiltin⟩ := h.named w hw
    have hb : T.isBasic x = false := by
      rw [← T.isBasic_normalize, Bool.eq_false_iff]
      exact fun hb => absurd (hbuiltin hb) (by simp [hbasic])
    have hmade := madeOf_of_part (u := w) h.bare
      (by rw [Part, h.form_alias hb hw]; exact List.mem_singleton_self w)
    exact .single (hnormal ▸ hmade)

/-- A type is formed if it is with its typedef resolved. -/
theorem PlainAt.formed_decode : T.Formed x ↔ T.Formed (T.decode x) := by
  unfold decode
  dsimp only
  cases hw : T.aliases.get? (normalize x) with
  | none => exact formed_normalize.symm
  | some w =>
    have hbuiltin := (h.named w hw).2.2.2
    rw [T.isBasic_normalize] at hbuiltin
    by_cases hb : T.isBasic x = true
    · exact iff_of_true (formed_of_basic hb) (formed_of_basic (hbuiltin hb))
    · have hform := h.form_alias (by simpa using hb) hw
      exact formed_iff_of_parts (by simp [hform]) (by rw [hform]; rfl)

end Decode

/-! ### Types without a typedef -/

/-- A plain type in normal form that is no typedef, from which ways down are short. -/
structure Resolved (T : TypeTable) (k : Nat) (d : String) : Prop where
  normal : normalize d = d
  named : T.aliases.get? d = none
  plain : T.PlainFrom d
  down : DownWithin T.MadeOf k d

theorem Resolved.madeOf {k : Nat} (h : T.Resolved k d) (hy : T.Part d y) :
    T.MadeOf d (normalize y) := by
  have hmade := madeOf_of_part (h.normal.symm ▸ (h.plain d .refl).bare) hy
  rwa [h.normal] at hmade

theorem Resolved.form_name {k : Nat} (h : T.Resolved k d) (hbasic : T.isBasic d = false)
    (hbracket : endsInBracket d = false) :
    T.form d = if !TypeName.isClean d then .unknown
      else ((T.structs.get? d).map fun r => TypeForm.struct r.memberTypes).getD .unknown := by
  rw [TypeTable.form_name h.normal hbasic hbracket (h.plain d .refl).bare, h.named]

section

variable (hnormal : normalize d = d) (halias : T.aliases.get? d = none)

include hnormal halias

theorem decode_resolved : T.decode d = d := by
  rw [decode, hnormal]
  simp only [halias, Option.getD_none]

theorem isArray_resolved : T.isArray d = endsInBracket d := by
  rw [isArray, decode_resolved hnormal halias]

omit halias in
theorem not_star_of_basic (hbasic : T.isBasic d = false) :
    endsInStar d = false := by
  rw [isBasic, hnormal, Bool.or_eq_false_iff] at hbasic
  exact hbasic.2

omit halias in
theorem kindOf_bracket (ht : T.decode x = d) (hbasic : T.isBasic d = false)
    (hbracket : endsInBracket d = true) : T.kindOf x = .array := by
  rw [kindOf, ht]
  simp only [not_star_of_basic hnormal hbasic, hbracket, Bool.false_eq_true, if_false, if_true]

theorem element_bracket (ht : T.decode x = d) (hbracket : endsInBracket d = true) :
    T.element x = (arrayLength (arrayParts d).2).map
      fun k => ((arrayParts d).1, k) := by
  rw [element, ht]
  simp only [isArray_resolved hnormal halias, hbracket, if_true]

end

end TypeTable

namespace Memory

/-! ## Free names -/

/-- The name is that of a part of what is called `name`, as far as names tell. -/
def NamedUnder (name n : String) : Prop :=
  ∃ c rest, n.toList = name.toList ++ c :: rest ∧ (c = '.' ∨ c = '[')

theorem NamedUnder.trans {a b c : String} (h : NamedUnder a b) (h' : NamedUnder b c) :
    NamedUnder a c := by
  obtain ⟨x, rest, hb, hx⟩ := h
  obtain ⟨y, rest', hc, _⟩ := h'
  exact ⟨x, rest ++ y :: rest', by rw [hc, hb]; simp, hx⟩

theorem not_under_self (name : String) : ¬ NamedUnder name name := by
  rintro ⟨c, rest, h, _⟩
  have hlength := congrArg List.length h
  simp at hlength

theorem under_suffix (name : String) (s : Slot) : NamedUnder name (name ++ s.suffix) := by
  cases s with
  | member m => exact ⟨'.', m.toList, by simp [Slot.suffix], .inl rfl⟩
  | element i => exact ⟨'[', (toString i ++ "]").toList, by simp [Slot.suffix], .inr rfl⟩
  | anyElement => exact ⟨'[', ['?', ']'], by simp [Slot.suffix], .inr rfl⟩

/-- What is written before a point or a bracket can be told from the text. -/
theorem eq_of_append_open {p q rest tail : List Char} {c : Char}
    (hp : '.' ∉ p ∧ '[' ∉ p) (hq : '.' ∉ q ∧ '[' ∉ q) (hc : c = '.' ∨ c = '[')
    (htail : ∀ d, tail.head? = some d → d = '.' ∨ d = '[') (h : p ++ tail = q ++ c :: rest) :
    p = q := by
  have hopen : ∀ {d : Char}, d = '.' ∨ d = '[' → d ∉ p ∧ d ∉ q := by
    rintro d (rfl | rfl)
    · exact ⟨hp.1, hq.1⟩
    · exact ⟨hp.2, hq.2⟩
  rcases List.append_eq_append_iff.mp h with ⟨as, rfl, htl⟩ | ⟨as, rfl, hcl⟩
  · cases as with
    | nil => rw [List.append_nil]
    | cons d as =>
      have hd := htail d (by rw [htl]; rfl)
      exact absurd (by simp) (hopen hd).2
  · cases as with
    | nil => rw [List.append_nil]
    | cons d as =>
      cases (List.cons.inj hcl).1
      exact absurd (by simp) (hopen hc).1

variable {p : String} {done : List String} {T : TypeTable}

/-- Parts of different members have different names. -/
theorem not_under_member {name q n : String} (hne : p ≠ q)
    (hp : '.' ∉ p.toList ∧ '[' ∉ p.toList) (hq : '.' ∉ q.toList ∧ '[' ∉ q.toList)
    (hn : n = name ++ "." ++ p ∨ NamedUnder (name ++ "." ++ p) n) :
    ¬ NamedUnder (name ++ "." ++ q) n := by
  rintro ⟨c, rest, hlist, hc⟩
  have hsplit : ∃ tail : List Char, (∀ d, tail.head? = some d → d = '.' ∨ d = '[') ∧
      n.toList = (name ++ "." ++ p).toList ++ tail := by
    rcases hn with rfl | ⟨d, rest', hd, hd'⟩
    · exact ⟨[], by simp, by simp⟩
    · exact ⟨d :: rest', fun e he => Option.some.inj he ▸ hd', hd⟩
  obtain ⟨tail, htail, hn⟩ := hsplit
  rw [hlist] at hn
  simp only [String.toList_append, List.append_assoc] at hn
  have heq := List.append_cancel_left (List.append_cancel_left hn)
  exact hne (String.toList_inj.mp (eq_of_append_open hp hq hc htail heq.symm))

/-- No name is that of a part. -/
def Free (m : Memory) (name : String) : Prop := ∀ n a, m.address? n = some a → ¬ NamedUnder name n

/-- The names that were added are the name and those of its parts. -/
def AddsUnder (name : String) (m m' : Memory) : Prop :=
  ∀ n a, m'.address? n = some a → (∃ a', m.address? n = some a') ∨ n = name ∨ NamedUnder name n

variable {m m' m'' : Memory} {name : String}

theorem AddsUnder.refl (name : String) (m : Memory) : AddsUnder name m m :=
  fun _ a ha => .inl ⟨a, ha⟩

theorem AddsUnder.trans (h : AddsUnder name m m') (h' : AddsUnder name m' m'') :
    AddsUnder name m m'' := by
  intro n a ha
  rcases h' n a ha with ⟨a', ha'⟩ | hn
  · exact h n a' ha'
  · exact .inr hn

theorem AddsUnder.whole {part : String} (h : AddsUnder part m m') (hpart : NamedUnder name part) :
    AddsUnder name m m' := by
  intro n a ha
  rcases h n a ha with hn | rfl | hn
  · exact .inl hn
  · exact .inr (.inr hpart)
  · exact .inr (.inr (hpart.trans hn))

theorem addsUnder_withBlock (m : Memory) (name : String) (parent : Nat) (id : VarId) :
    AddsUnder name m (m.withBlock name parent id) := by
  intro n a ha
  have ha : (m.names.set name m.next).get? n = some a := ha
  rw [Table.get?_set] at ha
  split at ha
  · next he => exact .inr (.inl he.symm)
  · exact .inl ⟨a, ha⟩

theorem Free.withBlock (h : m.Free name) (parent : Nat) (id : VarId) :
    (m.withBlock name parent id).Free name := by
  intro n a ha hunder
  have ha : (m.names.set name m.next).get? n = some a := ha
  rw [Table.get?_set] at ha
  split at ha
  · next he => exact not_under_self name (he ▸ hunder)
  · exact h n a ha hunder

/-- The names of parts are those of the members that are laid out, and of their parts. -/
def Taken (m : Memory) (name : String) (done : List String) : Prop :=
  ∀ n a, m.address? n = some a → NamedUnder name n →
    ∃ p ∈ done, n = name ++ "." ++ p ∨ NamedUnder (name ++ "." ++ p) n

theorem Free.taken (h : m.Free name) : m.Taken name [] := fun n a ha hn => absurd hn (h n a ha)

/-- The next member has a free name. -/
theorem Taken.free (h : m.Taken name done) (hp : p ∉ done)
    (hplain : ∀ q, q = p ∨ q ∈ done → '.' ∉ q.toList ∧ '[' ∉ q.toList) :
    m.Free (name ++ "." ++ p) := by
  intro n a ha hn
  have hunder : NamedUnder name (name ++ "." ++ p) := by
    rw [String.append_assoc]
    exact under_suffix name (.member p)
  obtain ⟨q, hq, hqn⟩ := h n a ha (hunder.trans hn)
  have hne : q ≠ p := fun he => hp (he ▸ hq)
  exact not_under_member hne (hplain q (.inr hq)) (hplain p (.inl rfl)) hqn hn

theorem Taken.add (h : m.Taken name done)
    (hadds : AddsUnder (name ++ "." ++ p) m m') : m'.Taken name (done ++ [p]) := by
  intro n a ha hn
  rcases hadds n a ha with ⟨a', ha'⟩ | hp
  · obtain ⟨q, hq, hqn⟩ := h n a' ha' hn
    exact ⟨q, List.mem_append_left _ hq, hqn⟩
  · exact ⟨p, List.mem_append_right _ (List.mem_singleton_self p), hp⟩

/-! ## Layouts -/

/-- The variable is newly declared, with a type that is laid out as `d`. -/
structure Declares (T : TypeTable) (d : String) (v : Variable) : Prop where
  parts : v.parts = {}
  type : T.decode v.type = d
  kind : v.kind = T.kindOf v.type

/-- Laying out a part decides whether its type is formed. -/
def LayoutDecides (T : TypeTable) (k : Nat) (layout : Layout) : Prop :=
  ∀ name type parent m, Linked (some name) m → parent < m.next → m.Free name →
    T.PlainFrom (normalize type) → DownWithin T.MadeOf k (normalize type) →
    Decides (layout name type parent) m (T.Formed type)
      fun _ m' => After m m' ∧ AddsUnder name m m'

section Parts

variable {T : TypeTable} {k : Nat} {layout : Layout} (hlayout : LayoutDecides T k layout)
  {d : String} (hd : T.Resolved (k + 1) d) (hbasic : T.isBasic d = false)

include hlayout

variable {id : VarId} {a : Nat} {b : Block}

/-- A part is laid out under the name that is owed for it. -/
theorem owed_decides {α : Type} {f : Nat → MemM α} {Q : α → Memory → Prop}
    {E : Fault → Memory → Prop} (h : Linked none m) {s : Slot} {part type : String}
    (hpart : (m.varOf id).name ++ s.suffix = part) (ha : a < m.next) (hfree : m.Free part)
    (hplain : T.PlainFrom (normalize type))
    (hdown : DownWithin T.MadeOf k (normalize type))
    (hok : ∀ c m', T.Formed type → After m m' → AddsUnder part m m' → Ends (f c) m' Q E)
    (hno : ¬ T.Formed type → ∀ e m', E e m') :
    Ends (do setPart id s m.next; let c ← layout part type a; f c) m Q E := by
  have hl : Linked (some part) (m.setVar id fun v => { v with parts := v.parts.set s m.next }) :=
    h.setPart (.inr ⟨by rw [hpart], rfl⟩)
  have hg := grows_setVar m id (f := fun v => { v with parts := v.parts.set s m.next }) fun _ => rfl
  refine Ends.bind_ok rfl (Ends.bind (Ends.mono
    (hlayout part type a _ hl ha hfree hplain hdown) ?_ fun e m' hn => hno hn e m'))
  rintro c m' ⟨hformed, hafter, hadds⟩
  exact hok c m' hformed ⟨hafter.linked, hg.trans hafter.grows⟩ hadds

include hd hbasic

/-- An element is laid out if and only if its type is formed. -/
theorem elementWith_decides (h : Linked none m) (hb : m.block? a = some b)
    (hname : (m.varOf b.var).name = name) (hv : Declares T d (m.varOf b.var)) (hfree : m.Free name)
    (hbracket : endsInBracket d = true) :
    Decides (elementWith T layout a name .anyElement) m (T.Formed d) fun _ m' => After m m' ∧
      AddsUnder name m m' := by
  have hform := form_bracket hd.normal hbasic hbracket
  refine Ends.bind_ok (variableAt_ok h hb) ?_
  dsimp only
  have hkind : (m.varOf b.var).kind = .array :=
    hv.kind.trans (kindOf_bracket hd.normal hv.type hbasic hbracket)
  rw [if_neg (not_not_intro hkind), hv.parts, Table.get?_empty]
  dsimp only
  rw [element_bracket hd.normal hd.named hv.type hbracket]
  cases hlength : arrayLength (arrayParts d).2 with
  | error e =>
    rw [hlength] at hform
    exact Ends.bind (Ends.of_error rfl fun hn => hn d .refl hform)
  | ok j =>
    rw [hlength] at hform
    have hiff : T.Formed d ↔ T.Formed (arrayParts d).1 :=
      formed_iff_of_parts (by simp [hform]) (by rw [hform]; rfl)
    have hcut := hd.madeOf (by rw [TypeTable.Part, hform]; exact List.mem_singleton_self _)
    refine Ends.bind_ok rfl (Ends.bind_ok rfl ?_)
    have hunder := under_suffix name .anyElement
    have hnone : m.address? (name ++ Slot.anyElement.suffix) = none := by
      cases hc : m.address? (name ++ Slot.anyElement.suffix) with
      | none => rfl
      | some c => exact absurd hunder (hfree _ c hc)
    rw [hnone]
    refine Ends.bind_ok rfl (owed_decides hlayout h (by rw [hname]) (h.lt_next_of_block hb).2
      (fun n c hc hn => hfree n c hc (hunder.trans hn)) (hd.plain.down (.single hcut))
      (hd.down _ hcut) ?_ fun hno _ _ hn => hno (hiff.mp hn))
    intro _ m' hformed hafter hadds
    exact Ends.bind_ok rfl (Ends.pure ⟨hiff.mpr hformed, hafter, hadds.whole hunder⟩)

omit hd hbasic in
/-- The members of a struct are laid out one after the other.  `done` holds those that are. -/
theorem allocateMembers_decides :
    ∀ {members : List (String × String)} {done : List String} {m : Memory}, Linked none m →
      id < m.vars.size → (m.varOf id).name = name → a < m.next →
      (done ++ members.map Prod.snd).Nodup →
      (∀ p ∈ done ++ members.map Prod.snd, '.' ∉ p.toList ∧ '[' ∉ p.toList) →
      m.Taken name done →
      (∀ e ∈ members, T.PlainFrom (normalize e.1) ∧
        DownWithin T.MadeOf k (normalize e.1)) →
      Decides (allocateMembers layout name a id members) m
        (∀ e ∈ members, T.Formed e.1)
        fun _ m' => After m m' ∧ AddsUnder name m m'
  | [], _, m, h, _, _, _, _, _, _, _ => Ends.pure ⟨by simp, .refl h, .refl name m⟩
  | (type, member) :: rest, done, m, h, hid, hname, ha, hnodup, hplain, htaken, htypes => by
      rw [List.map_cons] at hnodup hplain
      have hnew : member ∉ done := by
        intro hm
        exact (List.nodup_append.mp hnodup).2.2 member hm member List.mem_cons_self rfl
      have hunder : NamedUnder name (name ++ "." ++ member) := by
        rw [String.append_assoc]
        exact under_suffix name (.member member)
      have hfree : m.Free (name ++ "." ++ member) := by
        refine htaken.free hnew ?_
        rintro q (rfl | hq)
        · exact hplain q (List.mem_append_right _ List.mem_cons_self)
        · exact hplain q (List.mem_append_left _ hq)
      obtain ⟨htype, hdown⟩ := htypes _ List.mem_cons_self
      refine Ends.bind_ok rfl (owed_decides hlayout h ?_ ha hfree htype hdown ?_ ?_)
      · rw [hname, Slot.suffix, String.append_assoc]
      · intro _ m' hformed hafter hadds
        have hsplit : done ++ [member] ++ rest.map Prod.snd =
            done ++ member :: rest.map Prod.snd := by simp
        refine Ends.mono (allocateMembers_decides hafter.linked
          (Nat.lt_of_lt_of_le hid hafter.grows.vars) ((hafter.grows.var id hid).trans hname)
          (Nat.lt_of_lt_of_le ha hafter.grows.next) (hsplit ▸ hnodup) (hsplit ▸ hplain)
          (htaken.add hadds) fun e he => htypes e (List.mem_cons_of_mem _ he)) ?_ ?_
        · rintro _ m'' ⟨hrest, hafter', hadds'⟩
          exact ⟨List.forall_mem_cons.mpr ⟨hformed, hrest⟩, hafter.trans hafter',
            (hadds.whole hunder).trans hadds'⟩
        · exact fun _ _ hno hall => hno (List.forall_mem_cons.mp hall).2
      · exact fun hno _ _ hall => hno (hall (type, member) List.mem_cons_self)

/-- So are the members of a record. -/
theorem allocateRecord_decides (h : Linked none m) (hb : m.block? a = some b)
    (hname : (m.varOf b.var).name = name) (hfree : m.Free name)
    (hbracket : endsInBracket d = false) {r : Record} (hr : T.recordFor? d = some r) :
    Decides (allocateMembers layout name a b.var r.members) m (T.Formed d) fun _ m' => After m m' ∧
    AddsUnder name m m' := by
  obtain ⟨hclean, hr, hlength, hnodup, hplain⟩ :=
    (hd.plain d .refl).record hd.named hbasic hbracket r hr
  have hform : T.form d = .struct r.memberTypes := by
    rw [hd.form_name hbasic hbracket, hclean, hr]
    rfl
  have hiff : T.Formed d ↔ ∀ t ∈ r.memberTypes, T.Formed t := by
    rw [formed_iff, hform]
    exact and_iff_right (by simp)
  have htypes : ∀ t, t ∈ r.memberTypes ↔ ∃ e ∈ r.members, e.1 = t := by
    intro t
    rw [← List.mem_map, Record.members, List.map_fst_zip hlength]
  have hnames : (r.members.map Prod.snd).Sublist r.memberNames := by
    rw [Record.members, List.zip_eq_zip_take_min, List.map_snd_zip (by simp)]
    exact List.take_sublist ..
  have hmade : ∀ e ∈ r.members, T.MadeOf d (normalize e.1) := by
    intro e he
    refine hd.madeOf ?_
    rw [TypeTable.Part, hform]
    exact (htypes e.1).mpr ⟨e, he, rfl⟩
  refine Ends.mono (allocateMembers_decides hlayout h (h.var_lt hb) hname
    (h.lt_next_of_block hb).2 (hnodup.sublist hnames) (fun p hp => hplain p (hnames.subset hp))
    hfree.taken fun e he => ⟨hd.plain.down (.single (hmade e he)), hd.down _ (hmade e he)⟩) ?_ ?_
  · rintro _ m' ⟨hall, hq⟩
    refine ⟨hiff.mpr fun t ht => ?_, hq⟩
    obtain ⟨e, he, rfl⟩ := (htypes t).mp ht
    exact hall e he
  · intro _ _ hno hn
    exact hno fun e he => hiff.mp hn e.1 ((htypes e.1).mpr ⟨e, he, rfl⟩)

/-- Laying out the parts of a variable decides whether its type is formed. -/
theorem allocateParts_decides (h : Linked none m)
    (hb : m.block? a = some b) (hname : (m.varOf b.var).name = name)
    (hv : Declares T d (m.varOf b.var)) (hfree : m.Free name) :
    Decides (allocateParts T layout name d a b.var) m (T.Formed d)
      fun _ m' => After m m' ∧ AddsUnder name m m' := by
  unfold allocateParts
  rw [hbasic, if_neg (by decide), isArray_resolved hd.normal hd.named]
  by_cases hbracket : endsInBracket d = true
  · rw [if_pos hbracket]
    exact Ends.bind (Ends.mono
      (elementWith_decides hlayout hd hbasic h hb hname hv hfree hbracket)
      (fun _ _ hq => Ends.pure hq) fun _ _ hno => hno)
  · rw [if_neg hbracket]
    have hbracket : endsInBracket d = false := by simpa using hbracket
    cases hr : T.recordFor? d with
    | none =>
      have hnone : T.structs.get? d = none := by
        unfold recordFor? at hr
        split at hr
        · cases hr
        · assumption
      refine Ends.throw fun hformed => hformed d .refl ?_
      rw [hd.form_name hbasic hbracket, hnone]
      exact ite_self _
    | some r => exact allocateRecord_decides hlayout hd hbasic h hb hname hfree hbracket hr

end Parts

/-- The variable of a layout is a new one, or the given one. -/
theorem variableFor_declares {owed : Option String} {type : String}
    {given : Option VarId} (hl : Linked owed m) (a : Nat)
    (hd : T.decode (T.decode type) = T.decode type)
    (hgiven : ∀ id, given = some id → id < m.vars.size ∧ (m.varOf id).name = name ∧
      Declares T (T.decode type) (m.varOf id)) :
    ∃ id m', variableFor T name (T.decode type) a given m = .ok id m' ∧ Linked owed m' ∧
      Grows m m' ∧ m'.next = m.next ∧ m'.names = m.names ∧ id < m'.vars.size ∧
      (m'.varOf id).name = name ∧ Declares T (T.decode type) (m'.varOf id) := by
  cases given with
  | some id =>
    obtain ⟨hid, hname, hv⟩ := hgiven id rfl
    exact ⟨id, m, rfl, hl, .refl m, rfl, rfl, hid, hname, hv⟩
  | none =>
    refine ⟨m.vars.size, _, rfl, hl.declare rfl, grows_declare hl _, rfl, rfl, by simp, ?_, ?_⟩
    · rw [varOf_push, if_pos rfl]
      rfl
    · rw [varOf_push, if_pos rfl]
      exact ⟨rfl, hd, rfl⟩

/-- A layout decides whether the type is formed. -/
theorem allocateWithin_decides :
    ∀ (k : Nat) {owed : Option String} {name type : String} {parent : Nat} {given : Option VarId}
      {m : Memory}, Linked owed m → (∀ n, owed = some n → n = name) → parent < m.next →
      (∀ id, given = some id → id < m.vars.size ∧ (m.varOf id).name = name ∧
        Declares T (T.decode type) (m.varOf id)) →
      m.Free name → T.PlainFrom (normalize type) → DownWithin T.MadeOf k (normalize type) →
      Decides (allocateWithin T k name type parent given) m (T.Formed type)
        fun _ m' => After m m' ∧ AddsUnder name m m'
  | 0, _, _, _, _, _, _, _, _, _, _, _, _, hdown => hdown.elim
  | k + 1, owed, name, type, parent, given, m, hl, howed, hparent, hgiven, hfree, hplain,
      hdown => by
      have hlayout : LayoutDecides T k fun n t p => allocateWithin T k n t p none :=
        fun n t p m' hm' hp hn ht hk => allocateWithin_decides k hm'
          (fun _ he => (Option.some.inj he).symm) hp (fun _ he => nomatch he) hn ht hk
      have hat := hplain _ .refl
      have hdecode := decode_resolved hat.decode_normal.1 hat.decode_normal.2
      obtain ⟨id, m₁, hvar, hl₁, hg₁, hnext, hnames, hid, hname, hv⟩ :=
        variableFor_declares hl m.next hdecode hgiven
      unfold allocateWithin
      refine Ends.bind_ok rfl (Ends.bind_ok hvar (Ends.bind_ok rfl ?_))
      have hl₂ := hl₁.withBlock howed hid hname (hnext ▸ hparent)
      have hafter : After m (m₁.withBlock name parent id) :=
        ⟨hl₂, hg₁.trans (grows_withBlock hl₁ hname parent)⟩
      have haddress : ∀ n, m₁.address? n = m.address? n := fun n => by
        rw [address?, address?, hnames]
      have hadds : AddsUnder name m (m₁.withBlock name parent id) := by
        intro n a ha
        rw [← haddress]
        exact addsUnder_withBlock m₁ name parent id n a ha
      rw [hat.formed_decode]
      by_cases hbasic : T.isBasic (T.decode type) = true
      · refine Ends.bind_ok (by unfold allocateParts; rw [if_pos hbasic]; rfl) ?_
        exact Ends.pure ⟨formed_of_basic hbasic, hafter, hadds⟩
      · have hbasic : T.isBasic (T.decode type) = false := by simpa using hbasic
        have hdown' := hat.down_decode hbasic
        have hb : (m₁.withBlock name parent id).block? m.next =
            some { address := m₁.next, parent, var := id } := by
          rw [block?_withBlock hl₁, hnext, if_pos rfl]
        have hfree' : (m₁.withBlock name parent id).Free name :=
          Free.withBlock (fun n a ha => hfree n a (haddress n ▸ ha)) parent id
        have hparts := allocateParts_decides hlayout
          ⟨hat.decode_normal.1, hat.decode_normal.2, hplain.down hdown', hdown.down hdown'⟩
          hbasic hl₂ hb hname hv hfree'
        refine Ends.bind (Ends.mono hparts ?_ fun _ _ hno => hno)
        rintro _ m' ⟨hformed, hafter', hadds'⟩
        exact Ends.pure ⟨hformed, hafter.trans hafter', hadds.trans hadds'⟩

/-- Declaring a variable and laying it out. -/
def declareRoot (T : TypeTable) (v : Variable) : MemM Nat := do
  let id ← declare v
  allocateRoot T id

/-- Where no type is made of itself and all types on the way down are plain, a newly declared
variable with a free name can be laid out exactly if its type has a size. -/
theorem declareRoot_ok_iff_size {T : TypeTable} (hT : T.Acyclic) {v : Variable}
    (hplain : T.PlainFrom (TypeName.normalize v.type)) (hparts : v.parts = {})
    (hkind : v.kind = T.kindOf v.type) (hl : Linked none m) (hfree : m.Free v.name) :
    (∃ a m', declareRoot T v m = .ok a m') ↔
      ∃ k T', TypeTable.size v.type T.forgetSizes = .ok k T' := by
  rw [TypeTable.size_ok_iff hT hplain.bare]
  have hl' := hl.declare hparts
  have hvar : ({ m with vars := m.vars.push v } : Memory).varOf m.vars.size = v := by
    rw [varOf_push, if_pos rfl]
  have hdown : DownWithin T.MadeOf (layoutBound T { m with vars := m.vars.push v } v.type)
      (TypeName.normalize v.type) := hT.downWithin (by unfold layoutBound; omega)
  have hgiven : ∀ id, some m.vars.size = some id →
      id < ({ m with vars := m.vars.push v } : Memory).vars.size ∧
      (({ m with vars := m.vars.push v } : Memory).varOf id).name = v.name ∧
      Declares T (T.decode v.type) (({ m with vars := m.vars.push v } : Memory).varOf id) := by
    rintro id he
    cases he
    rw [hvar]
    exact ⟨by simp, rfl, hparts, rfl, hkind⟩
  have hlayout := allocateWithin_decides _ hl' (fun _ he => nomatch he) hl'.pos hgiven hfree hplain
    hdown
  have hroot : Decides (declareRoot T v) m (T.Formed v.type)
      fun _ _ => True := by
    refine Ends.bind_ok rfl (Ends.bind_ok rfl ?_)
    rw [hvar]
    refine Ends.bind (Ends.bind_ok rfl (Ends.mono hlayout ?_ fun _ _ hno => hno))
    rintro a m' ⟨hformed, _⟩
    exact Ends.bind_ok rfl (Ends.pure ⟨hformed, trivial⟩)
  exact Decides.ok_iff hroot

/-! ## A table of points, and one of lengths -/

/-- A struct with an array, and a typedef of it. -/
def points : TypeTable where
  structs := ⟨[("struct point",
    { name := "struct point", memberTypes := ["int", "int[2]"], memberNames := ["x", "y"] })]⟩
  aliases := ⟨[("point_in_plane", "struct point")]⟩

theorem acyclic_points : points.Acyclic :=
  acyclic_of_shorter (by decide +kernel) (by decide +kernel)

theorem plainFrom_points : points.PlainFrom (normalize "point_in_plane[3]") :=
  plainFrom_of_closed
    ["point_in_plane[3]", "point_in_plane", "struct point", "int", "int[2]"]
    (by decide +kernel) (by decide +kernel) (by decide +kernel)

/-- An array of points. -/
def triangle : Variable := { name := "t", type := "point_in_plane[3]", kind := .array }

theorem declareRoot_ok_iff_size_triangle :
    points.Acyclic ∧ points.PlainFrom (TypeName.normalize triangle.type) ∧
      ∃ a m', declareRoot points triangle {} = .ok a m' := by
  refine ⟨acyclic_points, plainFrom_points, ?_⟩
  refine (declareRoot_ok_iff_size acyclic_points plainFrom_points rfl (by decide +kernel)
    linked_empty fun _ _ ha => nomatch ha).mpr ?_
  have hsize : value? (TypeTable.size triangle.type points.forgetSizes) = some 16 := by
    decide +kernel
  obtain ⟨T', hT'⟩ := exists_of_value? hsize
  exact ⟨16, T', hT'⟩

/-- A typedef of a typedef. -/
def lengths : TypeTable where
  aliases := ⟨[("metres", "int"), ("distance", "metres")]⟩

/-- A variable of that type. -/
def height : Variable := { name := "h", type := "distance", kind := .builtin }

/-- A typedef of a typedef has a size, but a variable of it cannot be laid out. -/
theorem height_not_laid_out :
    lengths.Acyclic ∧ height.kind = lengths.kindOf height.type ∧
      (∃ T', TypeTable.size height.type lengths.forgetSizes = .ok 1 T') ∧
      ∃ m', declareRoot lengths height {} = .error (.unknownType "metres") m' := by
  refine ⟨TypeTable.acyclic_of_shorter (by decide +kernel) (by decide +kernel), by decide +kernel,
    exists_of_value? (by decide +kernel), ?_⟩
  have hfault : fault? (declareRoot lengths height {}) = some (.unknownType "metres") := by
    decide +kernel
  exact exists_of_fault? hfault

end Memory

end Footprint
