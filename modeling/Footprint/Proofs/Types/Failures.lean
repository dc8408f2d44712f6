import Footprint.Types.Declare
import Footprint.Proofs.Types.Memoised

/-!
# Questions that fail

A struct is marked as asked for before its members are measured.  When one of them
cannot be read the question fails, and the marks of the structs on the way to it
stay without a size.  They do so when the missing struct is added later, so the
struct that was asked for has no size from then on.

A `Session` is a row of questions and additions of new structs, and `Spoilt` says
which names its failed questions have left so.  A type that is made of
none of them is answered as from the start (`answers_of_session`).
-/

namespace Footprint

open Footprint.TypeName

/-- The first element without a property is one element. -/
theorem first_unique {α : Type} {P : α → Prop} {u u' : α} (hu : ¬ P u) (hu' : ¬ P u') :
    ∀ {before before' after after' : List α}, before ++ u :: after = before' ++ u' :: after' →
      (∀ v ∈ before, P v) → (∀ v ∈ before', P v) → u = u'
  | [], [], _, _, h, _, _ => (List.cons.inj h).1
  | [], v :: _, _, _, h, _, hbefore' => by
    obtain ⟨rfl, _⟩ := List.cons.inj h
    exact absurd (hbefore' u List.mem_cons_self) hu
  | v :: _, [], _, _, h, hbefore, _ => by
    obtain ⟨rfl, _⟩ := List.cons.inj h
    exact absurd (hbefore v List.mem_cons_self) hu'
  | _ :: before, _ :: before', _, _, h, hbefore, hbefore' =>
    first_unique hu hu' (List.cons.inj h).2 (fun v hv => hbefore v (List.mem_cons_of_mem _ hv))
      fun v hv => hbefore' v (List.mem_cons_of_mem _ hv)

/-- A size is not changed by reading what could not be read. -/
theorem Measures.extend {form form' : String → TypeForm}
    (he : ∀ u, form u ≠ .unknown → form' u = form u) {t : String} {s : Nat}
    (h : Measures form t s) :
    Measures form' t s := by
  refine @Measures.rec form (fun t s _ => Measures form' t s)
    (fun ts ks _ => List.Forall₂ (Measures form') ts ks) ?_ ?_ ?_ ?_ ?_ .nil ?_ t s h
  · exact fun hf => .basic ((he _ (by simp [hf])).trans hf)
  · exact fun hf _ hs => .array ((he _ (by simp [hf])).trans hf) hs
  · exact fun hf _ hs => .parens ((he _ (by simp [hf])).trans hf) hs
  · exact fun hf _ hs => .typedef ((he _ (by simp [hf])).trans hf) hs
  · exact fun hf _ hks => .struct ((he _ (by simp [hf])).trans hf) hks
  · exact fun _ _ hs hks => .cons hs hks

namespace TypeTable

variable {T T' : TypeTable} {n t u : String} {e : Fault} {stuck : List String}

/-! ## Answers -/

theorem Stops.not_formed (h : T.Stops t e) : ¬ T.Formed t := by
  induction h with
  | unknown hf => exact fun hformed => hformed _ .refl hf
  | part hparts _ _ ih =>
    refine fun hformed => ih (hformed.part ?_)
    rw [Part, hparts]
    exact List.mem_append_right _ List.mem_cons_self

/-- The fault is given by the table. -/
theorem Stops.unique (h : T.Stops t e) : ∀ {e' : Fault}, T.Stops t e' → e = e' := by
  induction h with
  | unknown hf =>
    intro e' h'
    cases h' with
    | unknown => rfl
    | part hparts => simp [hf, TypeForm.parts] at hparts
  | part hparts hbefore hu ih =>
    intro e' h'
    cases h' with
    | unknown hf => simp [hf, TypeForm.parts] at hparts
    | part hparts' hbefore' hu' =>
      cases first_unique hu.not_formed hu'.not_formed (hparts.symm.trans hparts') hbefore hbefore'
      exact ih hu'

/-- What a question about a size comes to. -/
def answer (t : String) (T : TypeTable) : Except Fault Nat :=
  match size t T with
  | .ok s _ => .ok s
  | .error e _ => .error e

/-- The answer that the types give, when nothing is remembered. -/
def Settles (T : TypeTable) (t : String) : Except Fault Nat → Prop
  | .ok s => Measures T.form t s ∧ T.Formed t
  | .error e => T.Stops t e

/-- No type is made of itself. -/
abbrev Loopless (T : TypeTable) : Prop := ∀ t, ¬ Relation.TransGen T.Part t t

theorem Settles.unique (hT : T.Loopless) : ∀ {a a' : Except Fault Nat}, T.Settles t a →
    T.Settles t a' → a = a'
  | .ok _, .ok _, h, h' =>
    congrArg Except.ok (measures_unique _ (downWithin_sizeBound hT t) h.1 h'.1)
  | .ok _, .error _, h, h' => absurd h.2 (Stops.not_formed h')
  | .error _, .ok _, h, h' => absurd h'.2 (Stops.not_formed h)
  | .error _, .error _, h, h' => congrArg Except.error (Stops.unique h h')

/-- A type that is made of nothing that is stuck is answered as its table says. -/
theorem answer_settles (hT : T.Loopless) (h : Found T stuck T') (htags : ∀ n ∈ stuck, T.Tag n)
    (hclear : ∀ u, T.Below t u → normalize u ∉ stuck) : T.Settles t (answer t T') := by
  have hfinds := size_finds htags (downWithin_sizeBound hT t) h
  unfold answer
  cases hrun : size t T' with
  | ok s T'' =>
    obtain ⟨hformed, hs⟩ := hfinds.value _ _ hrun
    exact ⟨hs.measures, hformed⟩
  | error e T'' => exact (hfinds.fault _ _ hrun).stops hclear

/-- A name that was asked for and has no size is not answered. -/
theorem Tag.size_eq (h : T.Tag (normalize t)) (hv : normalize t ∈ T.visited)
    (hs : T.sizes.get? (normalize t) = none) : size t T = .error .sizeUnknown T := by
  obtain ⟨hstar, hbracket, hparens⟩ := shape_of_isClean h.clean
  have hv : T.visited.contains (normalize t) = true := List.contains_iff_mem.mpr hv
  have hget : (get : TypeM TypeTable) T = .ok T T := rfl
  rw [size, bind_of_ok hget, sizeBound, sizeWithin]
  dsimp only
  rw [bind_of_ok hget, hstar, h.builtin, hbracket, hparens, h.clean, h.unaliased, hs, hv]
  rfl

/-! ## Adding structs -/

theorem Formed.extend (h : T.Formed t) (he : ∀ u, T.form u ≠ .unknown → T'.form u = T.form u) :
    T'.Formed t := by
  intro u hu
  have hbelow : T.Below t u := by
    induction hu with
    | refl => exact .refl
    | tail _ hu ih =>
      rw [Part, he _ (h _ ih)] at hu
      exact ih.tail hu
  rw [he u (h u hbelow)]
  exact h u hbelow

/-- A struct whose name could not be read changes nothing that could be read. -/
theorem form_define {d : Node} (hnew : T.form (structName d) = .unknown)
    (hu : T.form u ≠ .unknown) : (T.define d).2.form u = T.form u := by
  have hne : structName d ≠ normalize u := by
    intro he
    rw [he, form_normalize] at hnew
    exact hu hnew
  have hget : (T.define d).2.structs.get? (normalize u) =
      T.structs.get? (normalize u) :=
    (Table.get?_set ..).trans (if_neg hne)
  have hbuiltin : (T.define d).2.isBuiltin = T.isBuiltin := rfl
  have haliases : (T.define d).2.aliases = T.aliases := rfl
  unfold form
  dsimp only
  rw [hget, hbuiltin, haliases]

/-- What is remembered is right for the table itself. -/
theorem Found.self (h : Found T stuck T') : Found T' stuck T' where
  same := rfl
  right n s hs := by
    unfold Formed Part
    rw [h.form]
    exact h.right n s hs
  asked := h.asked
  known := h.known
  begun := h.begun
  pending := h.pending
  noted n s r hs hr ha := h.noted n s r hs hr ((sameTypes_of_unsized h.same).aliases n ▸ ha)

/-- What is remembered stays right when a struct is added. -/
theorem Found.define (h : Found T stuck T) {d : Node} (hnew : T.form (structName d) = .unknown) :
    Found (T.define d).2 stuck (T.define d).2 where
  same := rfl
  right n s hs := (h.right n s hs).imp (.extend fun _ => form_define hnew)
    (·.extend fun _ => form_define hnew)
  asked := h.asked
  known := h.known
  begun := h.begun
  pending := h.pending
  noted n s r hs hr ha := by
    have hne : structName d ≠ n := by
      rintro rfl
      exact (h.right _ s hs).2 _ .refl hnew
    exact h.noted n s r hs (((Table.get?_set ..).trans (if_neg hne)).symm.trans hr) ha

/-! ## Sessions -/

/-- Sizes are asked for and structs are added whose names could not be read before, from a table
without anything remembered.  No type is made of itself when a size is asked for.  The list holds
the failed questions, the last one first, each with the table at that moment. -/
inductive Session : List (TypeTable × String) → TypeTable → Prop where
  | start (T : TypeTable) : Session [] T.forgetSizes
  | answered {qs : List (TypeTable × String)} {T T' : TypeTable} {t : String} {s : Nat} :
      Session qs T → T.Loopless → size t T = .ok s T' → Session qs T'
  | failed {qs : List (TypeTable × String)} {T T' : TypeTable} {t : String} {e : Fault} :
      Session qs T → T.Loopless → size t T = .error e T' → Session ((T, t) :: qs) T'
  | added {qs : List (TypeTable × String)} {T : TypeTable} {d : Node} :
      Session qs T → T.form (structName d) = .unknown → Session qs (T.define d).2

/-- A failed question has come by the name on its way to a type that could not be read, or whose
name was spoilt before. -/
def Spoilt : List (TypeTable × String) → String → Prop
  | [], _ => False
  | (T, t) :: qs, n => Spoilt qs n ∨ ∃ v, T.Below t v ∧ normalize v = n ∧
      ∃ u, T.Below v u ∧ (T.form u = .unknown ∨ Spoilt qs (normalize u))

variable {qs : List (TypeTable × String)}

/-- The names that are stuck have been spoilt, and those of failed questions are among them. -/
theorem Session.exists_stuck (h : Session qs T) : ∃ stuck, Found T stuck T ∧
    (∀ n ∈ stuck, T.Tag n ∧ Spoilt qs n) ∧ ∀ q ∈ qs, T.Tag (normalize q.2) →
    normalize q.2 ∈ stuck := by
  induction h with
  | start T => exact ⟨[], T.found_forgetSizes.self, by simp, by simp⟩
  | @answered qs T T' t s _ hT hrun ih =>
    obtain ⟨stuck, h, hstuck, hasked⟩ := ih
    have hfinds := size_finds (fun n hn => (hstuck n hn).1) (downWithin_sizeBound hT t) h
    have h' := (hfinds.value _ _ hrun).2.found
    exact ⟨stuck, h'.self, fun n hn => (hstuck n hn).imp_left h'.tag.mpr,
      fun q hq htag => hasked q hq (h'.tag.mp htag)⟩
  | @failed qs T T' t e _ hT hrun ih =>
    obtain ⟨stuck, h, hstuck, hasked⟩ := ih
    have hfinds := size_finds (fun n hn => (hstuck n hn).1) (downWithin_sizeBound hT t) h
    obtain ⟨more, h', hnew, hmore⟩ := (hfinds.fault _ _ hrun).left
    refine ⟨more ++ stuck, h'.self, fun n hn => ?_, fun q hq htag => ?_⟩
    · rcases List.mem_append.mp hn with hn | hn
      · obtain ⟨htag, v, hv, he, u, hu, hblocked⟩ := hmore n hn
        exact ⟨h'.tag.mpr htag, .inr ⟨v, hv, he, u, hu, hblocked.imp_right fun hm =>
          (hstuck _ hm).2⟩⟩
      · exact ⟨h'.tag.mpr (hstuck n hn).1, .inl (hstuck n hn).2⟩
    · rcases List.mem_cons.mp hq with rfl | hq
      · exact hnew (h'.tag.mp htag)
      · exact List.mem_append_right _ (hasked q hq (h'.tag.mp htag))
  | @added qs T d _ hnew ih =>
    obtain ⟨stuck, h, hstuck, hasked⟩ := ih
    -- structs have no part in what is a tag
    have htag : ∀ n, (T.define d).2.Tag n ↔ T.Tag n := fun n =>
      ⟨fun h => ⟨h.clean, h.unaliased, h.builtin⟩, fun h => ⟨h.clean, h.unaliased, h.builtin⟩⟩
    exact ⟨stuck, h.define hnew, fun n hn => (hstuck n hn).imp_left (htag n).mpr,
      fun q hq h => hasked q hq ((htag _).mp h)⟩

/-- A type that is made of no name that failed questions have spoilt is answered as from the start.
The name that a failed question asked for is not answered any more. -/
theorem answers_of_session {qs : List (TypeTable × String)} (h : Session qs T) (hT : T.Loopless) :
    (∀ t, (∀ u, T.Below t u → ¬ Spoilt qs (TypeName.normalize u)) →
      answer t T = answer t T.forgetSizes) ∧
    ∀ q ∈ qs, T.Tag (TypeName.normalize q.2) → size q.2 T = .error .sizeUnknown T := by
  obtain ⟨stuck, h, hstuck, hasked⟩ := h.exists_stuck
  constructor
  · intro t hclear
    refine Settles.unique hT (answer_settles hT h (fun n hn => (hstuck n hn).1) fun u hu hm => ?_)
      (answer_settles hT T.found_forgetSizes (by simp) (by simp))
    exact hclear u hu (hstuck _ hm).2
  · intro q hq htag
    have hm := hasked q hq htag
    exact htag.size_eq (h.begun _ hm) (h.pending _ hm)

/-! ## A struct that comes too late -/

/-- The declaration of a struct with one member. -/
def lone (tag type : String) : Node :=
  .mk { kind := .structDecl, spelling := tag }
    [.mk { kind := .fieldDecl, spelling := "x",
           type := some { spelling := type, shape := .other, canonical := .other } } [] none] none

/-- The table after a question and its answer. -/
def afterAsking (t : String) (T : TypeTable) : TypeTable :=
  match size t T with
  | .ok _ T' => T'
  | .error _ T' => T'

theorem Session.ask (h : Session qs T) (hT : T.Loopless)
    (ha : answer t T = .error e) : Session ((T, t) :: qs) (afterAsking t T) := by
  unfold answer at ha
  unfold afterAsking
  cases hrun : size t T with
  | ok s T' =>
    rw [hrun] at ha
    cases ha
  | error e' T' => exact .failed h hT hrun

theorem loopless_of_shorter (haliases : ∀ e ∈ T.aliases.entries, e.2.length < e.1.length)
    (hstructs : ∀ e ∈ T.structs.entries, ∀ t ∈ e.2.memberTypes, t.length < e.1.length) :
    T.Loopless := by
  have hstep : ∀ t u, T.Part t u → u.length < t.length := fun _ _ h => h.length_lt haliases hstructs
  exact fun t ht => Nat.lt_irrefl _ (rank_lt_of_transGen hstep ht)

/-- A struct with a member of a struct that is not there. -/
def unfinished : TypeTable := (define {} (lone "holder" "struct a")).2.forgetSizes

/-- The missing struct is added after the question about the other one has failed. -/
def late : TypeTable := ((afterAsking "struct holder" unfinished).define (lone "a" "int")).2

theorem session_late : Session [(unfinished, "struct holder")] late := by
  refine .added (.ask (e := .undefinedType) (.start _) (loopless_of_shorter ?_ ?_) ?_) ?_
  · decide +kernel
  · decide +kernel
  · decide +kernel
  · decide +kernel

/-- Both structs have a size then, but neither is answered. -/
theorem late_struct_lost : Session [(unfinished, "struct holder")] late ∧ late.Loopless ∧
    answer "struct holder" late = .error .sizeUnknown ∧
    answer "struct holder" late.forgetSizes = .ok 3 ∧
    answer "struct a" late = .error .sizeUnknown ∧ answer "struct a" late.forgetSizes = .ok 2 :=
  ⟨session_late, loopless_of_shorter (by decide +kernel) (by decide +kernel), by decide +kernel⟩

/-- A struct that has nothing to do with them is added too. -/
def later : TypeTable := (late.define (lone "other" "int[2]")).2

theorem answers_of_session_later : Session [(unfinished, "struct holder")] later ∧ later.Loopless ∧
    answer "struct other" later = answer "struct other" later.forgetSizes ∧
    answer "struct other" later = .ok 4 ∧ later.Tag "struct holder" ∧
    size "struct holder" later = .error .sizeUnknown later := by
  have hs : Session [(unfinished, "struct holder")] later := .added session_late (by decide +kernel)
  have hT : later.Loopless := loopless_of_shorter (by decide +kernel) (by decide +kernel)
  have hn : TypeName.normalize "struct holder" = "struct holder" := by decide +kernel
  have htag : later.Tag "struct holder" :=
    ⟨by decide +kernel, by decide +kernel, by decide +kernel⟩
  obtain ⟨hclear, hlost⟩ := answers_of_session hs hT
  refine ⟨hs, hT, hclear _ fun u hu => ?_, by decide +kernel, htag, ?_⟩
  · have hu : u ∈ ["struct other", "int[2]", "int"] :=
      mem_of_below (by decide +kernel) (List.mem_cons_self ..) hu
    rintro (hnone | ⟨v, hv, he, _⟩)
    · exact hnone
    · have hv : v ∈ ["struct holder", "struct a"] :=
        mem_of_below (by decide +kernel) (List.mem_cons_self ..) hv
      have hne : ∀ u ∈ ["struct other", "int[2]", "int"], ∀ v ∈ ["struct holder", "struct a"],
          TypeName.normalize v ≠ TypeName.normalize u := by decide +kernel
      exact hne u hu v hv he
  · exact hlost (unfinished, "struct holder") List.mem_cons_self (hn.symm ▸ htag)

end TypeTable

end Footprint
