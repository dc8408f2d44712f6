import Footprint.Proofs.Types.Sized

/-!
# Remembered sizes are the sizes

In a regular table (`Regular`) every type that the table mentions is formed, and no
type is made of itself.  So there any questions about sizes, in any order, are
answered by the sizes (`askEach_measures`), however much was remembered before.
-/

namespace Footprint

open Table

variable {R : String → Nat → Prop}

theorem forall₂_unique : ∀ {ts : List String} {ks ks' : List Nat},
    (∀ t ∈ ts, ∀ k k', R t k → R t k' → k = k') → List.Forall₂ R ts ks →
    List.Forall₂ R ts ks' → ks = ks'
  | [], _, _, _, .nil, .nil => rfl
  | t :: ts, _, _, h, .cons hk hks, .cons hk' hks' => by
      rw [h t List.mem_cons_self _ _ hk hk',
        forall₂_unique (fun u hu => h u (List.mem_cons_of_mem _ hu)) hks hks']

theorem TypeForm.Sizes.unique {s s' : Nat} {f : TypeForm}
    (hR : ∀ t ∈ f.parts, ∀ k k', R t k → R t k' → k = k') (h : f.Sizes R s) (h' : f.Sizes R s') :
    s = s' := by
  cases f with
  | basic => exact h.trans h'.symm
  | array base k =>
    obtain ⟨k₁, hk₁, rfl⟩ := h
    obtain ⟨k₂, hk₂, rfl⟩ := h'
    rw [hR base List.mem_cons_self k₁ k₂ hk₁ hk₂]
  | parens inner => exact hR inner List.mem_cons_self s s' h h'
  | typedef target => exact hR target List.mem_cons_self s s' h h'
  | struct types =>
    obtain ⟨ks, hks, rfl⟩ := h
    obtain ⟨ks', hks', rfl⟩ := h'
    rw [forall₂_unique hR hks hks']
  | unknown => cases h

/-- A type has one size, where ways down from it end. -/
theorem measures_unique {form : String → TypeForm} : ∀ (d : Nat) {t : String} {s s' : Nat},
    DownWithin (fun t u => u ∈ (form t).parts) d t → Measures form t s → Measures form t s' → s = s'
  | 0, _, _, _, hdown, _, _ => hdown.elim
  | d + 1, t, s, s', hdown, h, h' => by
      have hparts : ∀ u ∈ (form t).parts, ∀ k k', Measures form u k → Measures form u k' → k = k' :=
        fun u hu _ _ => measures_unique d (hdown u hu)
      exact TypeForm.Sizes.unique hparts (measures_iff.mp h) (measures_iff.mp h')

namespace TypeTable

variable {T T' : TypeTable} {n t u : String}

/-! ## Regular tables -/

/-- The names are normal forms without the marks of other types, each is the name of one thing, no
type is made of itself, and all types that the table mentions are well formed and defined. -/
structure Regular (T : TypeTable) : Prop where
  named : ∀ n, T.aliases.contains n = true ∨ T.structs.contains n = true →
    TypeName.normalize n = n ∧ TypeName.isClean n = true ∧ T.isBuiltin n = false
  apart : ∀ n, T.aliases.contains n = true → T.structs.contains n = false
  acyclic : ∀ t, ¬ Relation.TransGen T.Part t t
  formed : ∀ n, T.aliases.contains n = true ∨ T.structs.contains n = true → T.Formed n

theorem mem_keys_iff {ν : Type} {es : Table String ν} : n ∈ es.keys ↔ es.contains n = true := by
  rw [contains, Option.isSome_iff_exists, keys, List.mem_map]
  constructor
  · rintro ⟨⟨k, v⟩, hm, rfl⟩
    exact exists_lookup hm
  · rintro ⟨v, hv⟩
    exact ⟨(n, v), mem_of_lookup hv, rfl⟩

variable {ts : List String}

theorem mem_of_below (h : ∀ t ∈ ts, ∀ u ∈ (T.form t).parts, u ∈ ts)
    (ht : t ∈ ts) (hu : T.Below t u) : u ∈ ts := by
  induction hu with
  | refl => exact ht
  | tail _ hu ih => exact h _ ih _ hu

/-- Types whose forms are known and made of one another are well formed. -/
theorem formed_of_closed (h : ∀ t ∈ ts, T.form t ≠ .unknown ∧ ∀ u ∈ (T.form t).parts, u ∈ ts) :
    ∀ t ∈ ts, T.Formed t :=
  fun _ ht u hu => (h u (mem_of_below (fun t ht => (h t ht).2) ht hu)).1

theorem Part.length_lt (haliases : ∀ e ∈ T.aliases.entries, e.2.length < e.1.length)
    (hstructs : ∀ e ∈ T.structs.entries, ∀ t ∈ e.2.memberTypes, t.length < e.1.length)
    (h : T.Part t u) : u.length < t.length := by
  rcases part_cases h with ⟨rfl, hlt⟩ | hu
  · exact hlt
  · exact Nat.lt_of_lt_of_le (hu.length_lt haliases hstructs) (TypeName.length_normalize_le t)

/-- A table is regular if its types are shorter than the names that stand for them. -/
theorem regular_of_shorter (ts : List String)
    (hnamed : ∀ n ∈ T.aliases.keys ++ T.structs.keys, TypeName.normalize n = n ∧
      TypeName.isClean n = true ∧ T.isBuiltin n = false ∧ n ∈ ts)
    (hapart : ∀ n ∈ T.aliases.keys, T.structs.contains n = false)
    (haliases : ∀ e ∈ T.aliases.entries, e.2.length < e.1.length)
    (hstructs : ∀ e ∈ T.structs.entries, ∀ t ∈ e.2.memberTypes, t.length < e.1.length)
    (hclosed : ∀ t ∈ ts, T.form t ≠ .unknown ∧ ∀ u ∈ (T.form t).parts, u ∈ ts) : T.Regular := by
  have hkeys : ∀ n, T.aliases.contains n = true ∨ T.structs.contains n = true →
      n ∈ T.aliases.keys ++ T.structs.keys := fun n hn => by
    rwa [List.mem_append, mem_keys_iff, mem_keys_iff]
  have hstep : ∀ t u, T.Part t u → u.length < t.length := fun _ _ h => h.length_lt haliases hstructs
  refine ⟨fun n hn => ?_, fun n hn => ?_, fun t ht => ?_, fun n hn => ?_⟩
  · obtain ⟨hnormal, hclean, hbuiltin, _⟩ := hnamed n (hkeys n hn)
    exact ⟨hnormal, hclean, hbuiltin⟩
  · exact hapart n (mem_keys_iff.mpr hn)
  · exact Nat.lt_irrefl _ (rank_lt_of_transGen hstep ht)
  · exact formed_of_closed hclosed n (hnamed n (hkeys n hn)).2.2.2

theorem lookup_of_perm {ν : Type} {es es' : List (String × ν)} (h : es.Perm es')
    (hnodup : (es.map Prod.fst).Nodup) (n : String) : lookup n es' = lookup n es := by
  induction h with
  | nil => rfl
  | cons e _ ih =>
    rw [lookup, lookup, ih (List.nodup_cons.mp hnodup).2]
  | swap e e' es =>
    have hne : e'.1 ≠ e.1 := fun he =>
      (List.nodup_cons.mp hnodup).1 (List.mem_cons.mpr (.inl he))
    simp only [lookup]
    by_cases he : e.1 = n
    · rw [if_pos he, if_neg (he ▸ hne), if_pos he]
    · rw [if_neg he, if_neg he]
  | trans h _ ih ih' => exact (ih' ((h.map _).nodup_iff.mp hnodup)).trans (ih hnodup)

theorem sameTypes_of_perm {es : List (String × Record)} (h : T.structs.entries.Perm es)
    (hnodup : T.structs.keys.Nodup) : SameTypes T { T with structs := ⟨es⟩ } where
  aliases _ := rfl
  structs n := congrArg (Option.map Record.memberTypes) (lookup_of_perm h hnodup n)
  isBuiltin _ := rfl

/-! ## Any questions in any order -/

/-- A question about sizes: that of one type, or those of all structs. -/
inductive Question where
  | sizeOf (t : String)
  | all
deriving DecidableEq

/-- Asks a question. -/
def Question.ask : Question → TypeM (Option Nat)
  | .sizeOf t => do
    let s ← size t
    return some s
  | .all => do
    sizeAll
    return none

/-- Asks questions one after the other. -/
def askEach : List Question → TypeM (List (Option Nat))
  | [] => return []
  | q :: qs => do
    let a ← q.ask
    let as ← askEach qs
    return a :: as

/-- The answer is the size of the type that was asked for. -/
def Question.Answered (form : String → TypeForm) : Question → Option Nat → Prop
  | .sizeOf t, a => ∃ s, a = some s ∧ ∀ s', Measures form t s' ↔ s' = s
  | .all, a => a = none

/-- The table holds the sizes of all structs. -/
def HoldsSizes (T T' : TypeTable) : Prop :=
  ∀ n, T.structs.contains n = true → ∃ r, T'.structs.get? n = some r ∧
    Measures T.form n r.size ∧ T'.sizes.get? n = some r.size

theorem Regular.exists_size (hT : T.Regular) (hformed : T.Formed t) (h : Found T [] T') :
    ∃ s T'', size t T' = .ok s T'' ∧ FoundSize T [] t T' s T'' := by
  have hsize := size_decides (downWithin_sizeBound hT.acyclic t) h
  obtain ⟨s, T'', hrun⟩ := hsize.ok_iff.mpr hformed
  exact ⟨s, T'', hrun, (hsize.value s T'' hrun).2⟩

theorem Regular.aliases_struct (hT : T.Regular) (h : T.structs.contains n = true) :
    T.aliases.get? n = none := by
  cases ha : T.aliases.get? n with
  | none => rfl
  | some w =>
    have hapart := hT.apart n (by rw [contains, ha]; rfl)
    rw [h] at hapart
    cases hapart

/-- A struct is read as what it is. -/
theorem Regular.form_struct (hT : T.Regular) {r : Record} (hr : T.structs.get? n = some r) :
    T.form n = .struct r.memberTypes := by
  have hstruct : T.structs.contains n = true := by rw [contains, hr]; rfl
  obtain ⟨hnormal, hclean, hbuiltin⟩ := hT.named n (.inr hstruct)
  obtain ⟨hstar, hbracket, hparens⟩ := TypeName.shape_of_isClean hclean
  have halias := hT.aliases_struct hstruct
  have hbasic : T.isBasic n = false := by rw [isBasic, hnormal, hbuiltin, hstar, Bool.or_self]
  rw [form_name hnormal hbasic hbracket hparens, hclean, halias, hr]
  rfl

theorem sizeEach_finds (hT : T.Regular) : ∀ {names : List String} {T' : TypeTable},
    (∀ n ∈ names, T.structs.contains n = true) → Found T [] T' →
    ∃ T'', sizeEach names T' = .ok ⟨⟩ T'' ∧ Found T [] T'' ∧ Later [] T' T'' ∧
      ∀ n ∈ names, n ∈ T''.visited
  | [], T', _, h => ⟨T', rfl, h, .refl [] T', by simp⟩
  | n :: names, T', hnames, h => by
      have hget : (get : TypeM TypeTable) T' = .ok T' T' := rfl
      have hn := hnames n List.mem_cons_self
      have hrest : ∀ T₁, Found T [] T₁ → Later [] T' T₁ → n ∈ T₁.visited →
          ∃ T'', sizeEach names T₁ = .ok ⟨⟩ T'' ∧ Found T [] T'' ∧ Later [] T' T'' ∧
            ∀ k ∈ n :: names, k ∈ T''.visited := by
        intro T₁ h₁ hlater hv
        obtain ⟨T₂, hrun, h₂, hlater', hall⟩ := sizeEach_finds hT
          (fun k hk => hnames k (List.mem_cons_of_mem _ hk)) h₁
        exact ⟨T₂, hrun, h₂, hlater.trans hlater',
          List.forall_mem_cons.mpr ⟨hlater'.visited n hv, hall⟩⟩
      rw [sizeEach, bind_of_ok hget]
      by_cases hv : T'.visited.contains n = true
      · rw [hv]
        exact hrest T' h (.refl [] T') (List.contains_iff_mem.mp hv)
      · rw [if_pos (by simpa using hv)]
        obtain ⟨r, hr⟩ := Option.isSome_iff_exists.mp hn
        obtain ⟨s, T₁, hrun, hs⟩ := hT.exists_size (hT.formed n (.inr hn)) h
        have hmem := hs.asked _ (hT.form_struct hr)
        rw [(hT.named n (.inr hn)).1] at hmem
        obtain ⟨T₂, hrun', hpost⟩ := hrest T₁ hs.found hs.later hmem
        refine ⟨T₂, ?_, hpost⟩
        rw [bind_of_ok hrun]
        exact hrun'

/-- What was asked for has its size noted, and a struct holds it. -/
theorem Found.holdsSizes (h : Found T [] T') (hT : T.Regular)
    (hall : ∀ n, T.structs.contains n = true → n ∈ T'.visited) : HoldsSizes T T' := by
  intro n hn
  obtain ⟨s, hs⟩ := (h.known n (hall n hn)).resolve_left List.not_mem_nil
  obtain ⟨r₀, hr₀⟩ := Option.isSome_iff_exists.mp hn
  obtain ⟨r, hr⟩ := h.exists_struct hr₀
  cases h.noted n s r hs hr (hT.aliases_struct hn)
  exact ⟨r, hr, (h.right n _ hs).1, hs⟩

/-- A question is answered, whatever was asked before. -/
theorem ask_finds (hT : T.Regular) (q : Question) (hq : ∀ t, q = .sizeOf t → T.Formed t)
    (h : Found T [] T') :
    ∃ a T'', q.ask T' = .ok a T'' ∧ q.Answered T.form a ∧ Found T [] T'' ∧ Later [] T' T'' ∧
      (q = .all → ∀ n, T.structs.contains n = true → n ∈ T''.visited) := by
  cases q with
  | sizeOf t =>
    obtain ⟨s, T₁, hrun, hs⟩ := hT.exists_size (hq t rfl) h
    refine ⟨some s, T₁, by rw [Question.ask, bind_of_ok hrun]; rfl, ⟨s, rfl, fun s' => ?_⟩,
      hs.found, hs.later, by simp⟩
    have hdown := downWithin_sizeBound hT.acyclic t
    exact ⟨fun hs' => measures_unique _ hdown hs' hs.measures, fun he => he ▸ hs.measures⟩
  | all =>
    have hkeys : ∀ n, n ∈ T'.structs.keys ↔ T.structs.contains n = true := fun n => by
      rw [← (sameTypes_of_unsized h.same).contains_structs, mem_keys_iff]
    obtain ⟨T₁, hrun, h₁, hlater, hall⟩ := sizeEach_finds hT (fun n hn => (hkeys n).mp hn) h
    refine ⟨none, T₁, ?_, rfl, h₁, hlater, fun _ n hn => hall n ((hkeys n).mpr hn)⟩
    have hget : (get : TypeM TypeTable) T' = .ok T' T' := rfl
    rw [Question.ask, sizeAll, bind_of_ok ((bind_of_ok hget).trans hrun)]
    rfl

theorem askEach_finds (hT : T.Regular) : ∀ {qs : List Question} {T' : TypeTable},
    (∀ t, .sizeOf t ∈ qs → T.Formed t) → Found T [] T' →
    ∃ answers T'', askEach qs T' = .ok answers T'' ∧
      List.Forall₂ (Question.Answered T.form) qs answers ∧ Found T [] T'' ∧ Later [] T' T'' ∧
      (.all ∈ qs → ∀ n, T.structs.contains n = true → n ∈ T''.visited)
  | [], T', _, h => ⟨[], T', rfl, .nil, h, .refl [] T', by simp⟩
  | q :: qs, T', hqs, h => by
      obtain ⟨a, T₁, hrun, ha, h₁, hlater, hall⟩ := ask_finds hT q
        (fun t ht => hqs t (ht ▸ List.mem_cons_self)) h
      obtain ⟨as, T₂, hrun', has, h₂, hlater', hall'⟩ := askEach_finds hT
        (fun t ht => hqs t (List.mem_cons_of_mem _ ht)) h₁
      refine ⟨a :: as, T₂, ?_, .cons ha has, h₂, hlater.trans hlater', fun hm n hn => ?_⟩
      · rw [askEach, bind_of_ok hrun, bind_of_ok hrun']
        rfl
      · rcases List.mem_cons.mp hm with he | hm
        · exact hlater'.visited n (hall he.symm n hn)
        · exact hall' hm n hn

/-- Whether a table is regular does not depend on the order of its entries. -/
theorem Regular.of_same (hT : T.Regular) (hsame : SameTypes T T') : T'.Regular := by
  have haliases : ∀ n, T'.aliases.contains n = T.aliases.contains n := fun n => by
    rw [contains, contains, hsame.aliases]
  have hpart : T'.Part = T.Part := by
    unfold Part
    rw [hsame.form]
  refine ⟨fun n hn => ?_, fun n hn => ?_, ?_, fun n hn => ?_⟩
  · rw [haliases, hsame.contains_structs] at hn
    rw [hsame.isBuiltin]
    exact hT.named n hn
  · rw [haliases] at hn
    rw [hsame.contains_structs]
    exact hT.apart n hn
  · rw [hpart]
    exact hT.acyclic
  · rw [haliases, hsame.contains_structs] at hn
    unfold Formed
    rw [hpart, hsame.form]
    exact hT.formed n hn

/-- In a regular table, in whatever order its entries stand, every question about the size of a type
is answered by its size, and once all structs were asked for the table holds their sizes. -/
theorem askEach_measures {T₀ : TypeTable} (hT : T.Regular) (hsame : SameTypes T T₀)
    {qs : List Question} (hqs : ∀ t, .sizeOf t ∈ qs → T.Formed t) :
    ∃ answers T', askEach qs T₀.forgetSizes = .ok answers T' ∧
      List.Forall₂ (Question.Answered T.form) qs answers ∧ (.all ∈ qs → HoldsSizes T T') := by
  have hformed : ∀ t, .sizeOf t ∈ qs → T₀.Formed t := fun t ht => by
    unfold Formed Part
    rw [hsame.form]
    exact hqs t ht
  obtain ⟨answers, T', hrun, hanswers, h, _, hall⟩ :=
    askEach_finds (hT.of_same hsame) hformed T₀.found_forgetSizes
  rw [hsame.form] at hanswers
  refine ⟨answers, T', hrun, hanswers, fun hm n hn => ?_⟩
  rw [← hsame.contains_structs] at hn
  rw [← hsame.form]
  exact h.holdsSizes (hT.of_same hsame) (hall hm) n hn

/-- Segments of two points, and a typedef of points. -/
def segments : TypeTable where
  structs := ⟨[
    ("struct point",
      { name := "struct point", memberTypes := ["int", "void *"], memberNames := ["x", "next"] }),
    ("struct segment_of_line",
      { name := "struct segment_of_line", memberTypes := ["position_in_plane[2]", "(struct point)"],
        memberNames := ["ends", "middle"] })]⟩
  aliases := ⟨[("position_in_plane", "struct point")]⟩

/-- The same types, with the segments before the points. -/
def segmentsFirst : TypeTable := { segments with structs := ⟨segments.structs.entries.reverse⟩ }

theorem regular_segments : segments.Regular :=
  regular_of_shorter ["position_in_plane", "struct segment_of_line", "struct point", "int",
      "void *", "position_in_plane[2]", "(struct point)"]
    (by decide +kernel) (by decide +kernel) (by decide +kernel) (by decide +kernel)
    (by decide +kernel)

theorem sameTypes_segments : SameTypes segments segmentsFirst :=
  sameTypes_of_perm (List.reverse_perm _).symm (by decide +kernel)

/-- All sizes, then the size of an array of points, in a table that lists the segments first. -/
theorem askEach_measures_segments :
    segments.Regular ∧ SameTypes segments segmentsFirst ∧
      (∀ t, .sizeOf t ∈ [Question.all, .sizeOf "position_in_plane[2]"] → segments.Formed t) ∧
      ∃ T', askEach [.all, .sizeOf "position_in_plane[2]"] segmentsFirst.forgetSizes =
          .ok [none, some 7] T' ∧ HoldsSizes segments T' := by
  have hformed : ∀ t, .sizeOf t ∈ [Question.all, .sizeOf "position_in_plane[2]"] →
      segments.Formed t := by
    intro t ht
    have he : t = "position_in_plane[2]" := by simpa using ht
    have hpart : segments.Part "struct segment_of_line" t := by
      rw [he, Part]
      decide +kernel
    exact (regular_segments.formed "struct segment_of_line" (.inr (by decide +kernel))).part hpart
  have hvalue : value? (askEach [.all, .sizeOf "position_in_plane[2]"] segmentsFirst.forgetSizes) =
      some [none, some 7] := by decide +kernel
  obtain ⟨answers, T', hrun, _, hsizes⟩ :=
    askEach_measures regular_segments sameTypes_segments hformed
  rw [hrun] at hvalue
  cases hvalue
  exact ⟨regular_segments, sameTypes_segments, hformed, T', hrun, hsizes List.mem_cons_self⟩

end TypeTable

end Footprint
