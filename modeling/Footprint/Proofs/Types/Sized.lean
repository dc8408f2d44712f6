import Footprint.Proofs.Outcome
import Footprint.Proofs.Types.Nesting

/-!
# Which types have a size

How a spelling is to be read in a table is its `TypeForm`: a basic type, an array, a
type in parentheses, a typedef or a struct.  The form gives the types that a type
is directly made of (`Part`), and from it the size can be found without
remembering anything (`Measures`).  A type is `Formed` if its own spelling can be
read, and so can those of all types that it is made of.

Finding sizes in a table remembers them in three places, which are written at
different moments: the names asked for, the table of sizes, and the structs.
`Found` says what holds in between.  It separates the structs that are finished
from those on the `path`, which are being measured.  The latter have been asked
for, but their sizes are only being added up.  What is measured meanwhile does
not touch them, where no type is made of itself.

A struct that could not be measured stays on the path, and is stuck.  Finding a
size gives it, or comes to a type that cannot be read or that is stuck
(`sizeWithin_finds`).  So where nothing is stuck it decides whether the type is
formed (`size_decides`).
-/

namespace Footprint

open Footprint.TypeName Table

/-! ## Normal forms -/

namespace Text

/-- The text is a word. -/
def IsWord (w : List Char) : Prop := w ≠ [] ∧ ∀ c ∈ w, isBlank c = false

theorem isWord_of_mem_words : ∀ {cs w : List Char}, w ∈ words cs → IsWord w
  | [], _, h => nomatch h
  | c :: cs, w, h => by
      have ih : ∀ w ∈ words cs, IsWord w := fun w hw => isWord_of_mem_words hw
      unfold words at h
      by_cases hc : isBlank c = true
      · rw [if_pos hc] at h
        exact ih w h
      · have hc : isBlank c = false := by simpa using hc
        have hsingle : IsWord [c] := ⟨by simp, by simpa using hc⟩
        rw [hc, if_neg (by decide)] at h
        split at h
        · cases List.mem_cons.mp h with
          | inl he => exact he ▸ hsingle
          | inr hw => exact ih w hw
        · cases hws : words cs with
          | nil =>
            rw [hws] at h
            exact List.mem_singleton.mp h ▸ hsingle
          | cons v vs =>
            rw [hws] at h ih
            cases List.mem_cons.mp h with
            | inl he =>
              subst he
              refine ⟨by simp, fun d hd => ?_⟩
              cases List.mem_cons.mp hd with
              | inl he => exact he ▸ hc
              | inr hd => exact (ih v List.mem_cons_self).2 d hd
            | inr hw => exact ih w (List.mem_cons_of_mem _ hw)

/-- The text is empty or ends in a blank, so that a word after it begins. -/
def Breaks (cs : List Char) : Prop := ∀ c, cs.getLast? = some c → isBlank c = true

/-- Two texts have the words of both, if no word goes on from the one to the other. -/
theorem words_append {ds : List Char} :
    ∀ {cs : List Char}, Breaks cs ∨ wordEnds ds = true → words (cs ++ ds) = words cs ++ words ds
  | [], _ => rfl
  | [c], h => by
    by_cases hc : isBlank c = true
    · simp [words, hc]
    · have hds : wordEnds ds = true := h.resolve_left fun hb => hc (hb c rfl)
      have hnil : wordEnds [] = true := rfl
      simp [words, hc, hds, hnil]
  | c :: d :: cs, h => by
    have ih : words (d :: cs ++ ds) = words (d :: cs) ++ words ds :=
      words_append (h.imp_left fun hb e he => hb e (List.getLast?_cons_cons.trans he))
    have hends : wordEnds (d :: cs ++ ds) = wordEnds (d :: cs) := rfl
    rw [List.cons_append, words, words, ih, hends]
    by_cases hc : isBlank c = true
    · rw [if_pos hc, if_pos hc]
    · rw [if_neg hc, if_neg hc]
      by_cases hd : isBlank d = true
      · simp [wordEnds, hd]
      · obtain ⟨w, ws, hws⟩ : ∃ w ws, words (d :: cs) = w :: ws := by
          unfold words
          rw [if_neg hd]
          split
          · exact ⟨_, _, rfl⟩
          · cases words cs
            · exact ⟨_, _, rfl⟩
            · exact ⟨_, _, rfl⟩
        simp [wordEnds, hd, hws, consWord]

theorem words_of_isWord : ∀ {w : List Char}, IsWord w → words w = [w]
  | [], h => absurd rfl h.1
  | [c], h => by simp [words, wordEnds, h.2 c List.mem_cons_self]
  | c :: d :: w, h => by
    have ih :=
      words_of_isWord (w := d :: w) ⟨by simp, fun e he => h.2 e (List.mem_cons_of_mem _ he)⟩
    rw [words, h.2 c List.mem_cons_self, ih]
    simp [wordEnds, h.2 d (List.mem_cons_of_mem _ List.mem_cons_self), consWord]

/-- The words of a text made of words are these words. -/
theorem words_intercalate : ∀ {ws : List (List Char)}, (∀ w ∈ ws, IsWord w) →
    words ([' '].intercalate ws) = ws
  | [], _ => rfl
  | [w], h => by
      rw [List.intercalate_singleton]
      exact words_of_isWord (h w List.mem_cons_self)
  | w :: w' :: ws, h => by
      have ih : words ([' '].intercalate (w' :: ws)) = w' :: ws :=
        words_intercalate fun v hv => h v (List.mem_cons_of_mem _ hv)
      rw [List.intercalate_cons_cons, List.append_assoc, words_append (.inr rfl),
        words_of_isWord (h w List.mem_cons_self)]
      exact congrArg (w :: ·) ih

end Text

namespace TypeName

@[simp] theorem kept_kept (ws : List (List Char)) : kept (kept ws) = kept ws := by
  simp [kept]

theorem words_normalize (t : String) :
    Text.words (normalize t).toList = kept (Text.words t.toList) := by
  rw [toList_normalize]
  exact Text.words_intercalate fun w hw => Text.isWord_of_mem_words (List.mem_of_mem_filter hw)

/-- A normal form is its own normal form. -/
@[simp] theorem normalize_normalize (t : String) : normalize (normalize t) = normalize t := by
  apply String.toList_injective
  rw [toList_normalize, words_normalize, toList_normalize, kept_kept]

variable {t : String}

theorem length_inside_lt (h : inParens t = true) : (inside t).length < t.length := by
  have hpos : 0 < t.toList.length := by
    cases ht : t.toList with
    | nil =>
      rw [inParens, ht] at h
      cases h
    | cons => exact Nat.succ_pos _
  rw [inside, String.length_ofList, ← String.length_toList, List.length_dropLast, List.length_drop]
  omega

/-- Why a spelling that cannot be read has no size. -/
def faultOf (t : String) : Fault :=
  let n := normalize t
  if endsInBracket n then
    match arrayLength (arrayParts n).2 with
    | .ok _ => .undefinedType
    | .error e => e
  else if !isClean n then .notClean n
  else .undefinedType

/-- A name without marks is no pointer, no array and not in parentheses. -/
theorem shape_of_isClean (h : isClean t = true) :
    endsInStar t = false ∧ endsInBracket t = false ∧ inParens t = false := by
  unfold isClean at h
  simp only [Bool.and_eq_true, Bool.not_eq_true', List.contains_eq_mem,
    decide_eq_false_iff_not] at h
  obtain ⟨⟨hstar, hbracket⟩, hparen⟩ := h
  refine ⟨?_, ?_, ?_⟩
  · exact decide_eq_false fun hlast => hstar (List.mem_of_getLast? hlast)
  · simp [endsInBracket, hbracket]
  · rw [inParens, Bool.and_eq_false_iff]
    exact .inl (decide_eq_false fun hhead => hparen (List.mem_of_head? hhead))

end TypeName

/-- How the spelling of a type is read. -/
inductive TypeForm where
  | basic
  | array (base : String) (length : Nat)
  | parens (inner : String)
  | typedef (target : String)
  | struct (types : List String)
  | unknown
deriving DecidableEq

/-- The types that a type is directly made of. -/
def TypeForm.parts : TypeForm → List String
  | .basic => []
  | .array base _ => [base]
  | .parens inner => [inner]
  | .typedef target => [target]
  | .struct types => types
  | .unknown => []

/-- The size of a type of the given form, if `R` gives the sizes of the types it is made of. -/
def TypeForm.Sizes (R : String → Nat → Prop) (s : Nat) : TypeForm → Prop
  | .basic => s = 1
  | .array base k => ∃ s', R base s' ∧ s = 1 + k * s'
  | .parens inner => R inner s
  | .typedef target => R target s
  | .struct types => ∃ ks, List.Forall₂ R types ks ∧ s = 1 + total id ks
  | .unknown => False

/-- A type has a size.  Nothing is remembered from one type to the next. -/
inductive Measures (form : String → TypeForm) : String → Nat → Prop where
  | basic {t : String} : form t = .basic → Measures form t 1
  | array {t base : String} {k s : Nat} : form t = .array base k → Measures form base s →
      Measures form t (1 + k * s)
  | parens {t inner : String} {s : Nat} : form t = .parens inner → Measures form inner s →
      Measures form t s
  | typedef {t target : String} {s : Nat} : form t = .typedef target → Measures form target s →
      Measures form t s
  | struct {t : String} {types : List String} {ks : List Nat} : form t = .struct types →
      List.Forall₂ (Measures form) types ks → Measures form t (1 + total id ks)

theorem measures_iff {form : String → TypeForm} {t : String} {s : Nat} :
    Measures form t s ↔ (form t).Sizes (Measures form) s := by
  constructor
  · intro h
    cases h with
    | basic hf => rw [hf]; rfl
    | array hf hs => rw [hf]; exact ⟨_, hs, rfl⟩
    | parens hf hs => rw [hf]; exact hs
    | typedef hf hs => rw [hf]; exact hs
    | struct hf hks => rw [hf]; exact ⟨_, hks, rfl⟩
  · intro h
    cases hf : form t with
    | basic => rw [hf] at h; subst h; exact .basic hf
    | array base k => rw [hf] at h; obtain ⟨s', hs, rfl⟩ := h; exact .array hf hs
    | parens inner => rw [hf] at h; exact .parens hf h
    | typedef target => rw [hf] at h; exact .typedef hf h
    | struct types => rw [hf] at h; obtain ⟨ks, hks, rfl⟩ := h; exact .struct hf hks
    | unknown => rw [hf] at h; cases h

namespace TypeTable

variable {T T' : TypeTable} {n t u y : String}

/-! ## How a table reads a spelling -/

/-- How a table reads a spelling. -/
def form (T : TypeTable) (t : String) : TypeForm :=
  let n := normalize t
  if endsInStar n || T.isBuiltin n then .basic
  else if endsInBracket n then
    match arrayLength (arrayParts n).2 with
    | .ok k => .array (arrayParts n).1 k
    | .error _ => .unknown
  else if inParens n then .parens (inside n)
  else if !TypeName.isClean n then .unknown
  else match T.aliases.get? n with
    | some target => .typedef target
    | none => ((T.structs.get? n).map fun r => TypeForm.struct r.memberTypes).getD .unknown

/-- A type is directly made of another one. -/
def Part (T : TypeTable) (t u : String) : Prop := u ∈ (T.form t).parts

/-- The type is well formed and defined, and so are all types that it is made of. -/
def Formed (T : TypeTable) (t : String) : Prop :=
  ∀ u, Relation.ReflTransGen T.Part t u → T.form u ≠ .unknown

theorem Formed.part (h : T.Formed t) (hu : T.Part t u) : T.Formed u :=
  fun v hv => h v (.head hu hv)

theorem formed_iff :
    T.Formed t ↔ T.form t ≠ .unknown ∧ ∀ u ∈ (T.form t).parts, T.Formed u := by
  refine ⟨fun h => ⟨h t .refl, fun u hu => h.part hu⟩, fun ⟨ht, hparts⟩ u hu => ?_⟩
  rcases hu.cases_head with rfl | ⟨v, hv, hvu⟩
  · exact ht
  · exact hparts v hv u hvu

/-- A type that is made of one other type is formed if that is. -/
theorem formed_iff_of_parts (hform : T.form t ≠ .unknown) (h : (T.form t).parts = [u]) :
    T.Formed t ↔ T.Formed u := by
  rw [formed_iff, and_iff_right hform, h, List.forall_mem_singleton]

theorem form_normalize (T : TypeTable) (t : String) : T.form (normalize t) = T.form t := by
  unfold form
  simp only [normalize_normalize]

theorem formed_normalize : T.Formed (normalize t) ↔ T.Formed t := by
  rw [formed_iff, form_normalize, ← formed_iff]

theorem measures_normalize {s : Nat} :
    Measures T.form (normalize t) s ↔ Measures T.form t s := by
  rw [measures_iff, form_normalize, ← measures_iff]

/-- Only names are read as typedefs and structs. -/
theorem form_named (T : TypeTable) (t : String) :
    (∀ target, T.form t = .typedef target →
      T.aliases.get? (normalize t) = some target) ∧
    ∀ types, T.form t = .struct types →
      ∃ r, T.structs.get? (normalize t) = some r ∧ r.memberTypes = types := by
  unfold form
  dsimp only
  generalize normalize t = n
  split
  · simp
  split
  · split
    · simp
    · simp
  split
  · simp
  split
  · simp
  cases T.aliases.get? n with
  | some target => simp
  | none => cases T.structs.get? n with
    | some r => simp
    | none => simp

/-! ### Types in normal form -/

theorem isBasic_normalize (T : TypeTable) (t : String) :
    T.isBasic (normalize t) = T.isBasic t := by
  rw [isBasic, isBasic, normalize_normalize]

theorem form_basic (h : T.isBasic t = true) : T.form t = .basic := by
  rw [isBasic, Bool.or_comm] at h
  exact if_pos h

theorem formed_of_basic (h : T.isBasic t = true) : T.Formed t := by
  rw [formed_iff, form_basic h]
  exact ⟨by simp, fun u hu => absurd hu List.not_mem_nil⟩

section Normal

variable (hnormal : normalize n = n) (hbasic : T.isBasic n = false)

include hnormal hbasic

theorem form_bracket (h : endsInBracket n = true) :
    T.form n = match arrayLength (arrayParts n).2 with
      | .ok k => .array (arrayParts n).1 k
      | .error _ => .unknown := by
  rw [isBasic, hnormal, Bool.or_comm] at hbasic
  unfold form
  dsimp only
  rw [hnormal, hbasic, if_neg (by decide), if_pos h]

theorem form_name (hbracket : endsInBracket n = false)
    (hparens : inParens n = false) :
    T.form n = if !TypeName.isClean n then .unknown
      else match T.aliases.get? n with
        | some target => .typedef target
        | none =>
          ((T.structs.get? n).map fun r => TypeForm.struct r.memberTypes).getD .unknown := by
  rw [isBasic, hnormal, Bool.or_comm] at hbasic
  unfold form
  dsimp only
  rw [hnormal, hbasic, if_neg (by decide), hbracket, if_neg (by decide), hparens,
    if_neg (by decide)]

end Normal

/-! ## What types are made of -/

/-- The types that a type in normal form is made of. -/
def made (T : TypeTable) (n : String) : List String :=
  if T.isBasic n then []
  else if endsInBracket n then [cutType n]
  else match T.aliases.get? n with
    | some target => [normalize target]
    | none => ((T.structs.get? n).map fun r => r.memberTypes.map normalize).getD []

/-- A type is made of another one. -/
def MadeOf (T : TypeTable) (n y : String) : Prop := y ∈ T.made n

/-- No type is made of itself. -/
def Acyclic (T : TypeTable) : Prop := ∀ n, ¬ Relation.TransGen T.MadeOf n n

/-- In the table the name stands for the type, or for a struct with a member of it. -/
def Mentions (T : TypeTable) (n u : String) : Prop :=
  T.aliases.get? n = some u ∨ ∃ r, T.structs.get? n = some r ∧ u ∈ r.memberTypes

theorem Mentions.length_lt (haliases : ∀ e ∈ T.aliases.entries, e.2.length < e.1.length)
    (hstructs : ∀ e ∈ T.structs.entries, ∀ t ∈ e.2.memberTypes, t.length < e.1.length)
    (h : T.Mentions n u) : u.length < n.length := by
  rcases h with ha | ⟨r, hr, hu⟩
  · exact haliases _ (mem_of_lookup ha)
  · exact hstructs _ (mem_of_lookup hr) u hu

theorem madeOf_cases (h : T.MadeOf n y) :
    (endsInBracket n = true ∧ y = cutType n) ∨
      ∃ u, T.Mentions n u ∧ y = normalize u := by
  unfold MadeOf made at h
  split at h
  · cases h
  split at h
  · next hbracket => exact .inl ⟨hbracket, List.mem_singleton.mp h⟩
  split at h
  · next w hw => exact .inr ⟨w, .inl hw, List.mem_singleton.mp h⟩
  · cases hr : T.structs.get? n with
    | none =>
      rw [hr] at h
      cases h
    | some r =>
      rw [hr] at h
      obtain ⟨u, hu, rfl⟩ := List.mem_map.mp h
      exact .inr ⟨u, .inr ⟨r, hr, hu⟩, rfl⟩

/-- Types that are longer than what they are made of are not made of themselves. -/
theorem acyclic_of_shorter (haliases : ∀ e ∈ T.aliases.entries, e.2.length < e.1.length)
    (hstructs : ∀ e ∈ T.structs.entries, ∀ t ∈ e.2.memberTypes, t.length < e.1.length) :
    T.Acyclic := by
  suffices h : ∀ n y, T.MadeOf n y → y.length < n.length from
    fun n hn => Nat.lt_irrefl _ (rank_lt_of_transGen h hn)
  intro n y h
  rcases madeOf_cases h with ⟨hbracket, rfl⟩ | ⟨u, hu, rfl⟩
  · exact length_cutType_lt n (by simpa using (Bool.and_eq_true_iff.mp hbracket).2)
  · exact Nat.lt_of_le_of_lt (length_normalize_le u) (hu.length_lt haliases hstructs)

/-- The types of the way down do not stand in parentheses. -/
def Bare (T : TypeTable) (n : String) : Prop :=
  ∀ y, Relation.ReflTransGen T.MadeOf n y → inParens y = false

/-- What a type without parentheses is directly made of, it is made of in normal form. -/
theorem madeOf_of_part (hbare : inParens (normalize t) = false)
    (h : T.Part t u) : T.MadeOf (normalize t) (normalize u) := by
  have hbasic : T.isBasic (normalize t) = _ := T.isBasic_normalize t
  rw [isBasic.eq_def T t, Bool.or_comm] at hbasic
  unfold Part form at h
  unfold MadeOf made
  dsimp only at h hbasic
  rw [hbasic]
  generalize normalize t = n at h hbare ⊢
  split at h
  · cases h
  next hb =>
  rw [if_neg hb]
  split at h
  · next hbracket =>
    rw [if_pos hbracket]
    split at h
    · cases List.mem_singleton.mp h
      exact List.mem_singleton_self _
    · cases h
  next hbracket =>
  rw [if_neg hbracket]
  rw [hbare, if_neg (by decide)] at h
  split at h
  · cases h
  cases ha : T.aliases.get? n with
  | some w =>
    rw [ha] at h
    cases List.mem_singleton.mp h
    exact List.mem_singleton_self _
  | none =>
    rw [ha] at h
    cases hr : T.structs.get? n with
    | none =>
      rw [hr] at h
      cases h
    | some r =>
      rw [hr] at h
      exact List.mem_map_of_mem h

theorem downWithin_part : ∀ {k : Nat} {t : String}, DownWithin T.MadeOf k (normalize t) →
    T.Bare (normalize t) → DownWithin T.Part k t
  | 0, _, h, _ => h.elim
  | _ + 1, _, h, hbare => fun _ hu =>
      have hmade := madeOf_of_part (hbare _ .refl) hu
      downWithin_part (h _ hmade) fun y hy => hbare y (.head hmade hy)

/-! ### Ways down are short -/

/-- The spelling without its last bracket, or else without its parentheses. -/
def shorter (t : String) : String :=
  let n := normalize t
  if endsInBracket n then (arrayParts n).1 else inside n

theorem shorter_bracket (h : endsInBracket (normalize t) = true) :
    shorter t = (arrayParts (normalize t)).1 ∧ (shorter t).length < t.length := by
  have hshorter : shorter t = (arrayParts (normalize t)).1 := if_pos h
  refine ⟨hshorter, hshorter ▸ Nat.lt_of_lt_of_le ?_ (length_normalize_le t)⟩
  exact length_arrayParts_lt (by simpa using (Bool.and_eq_true_iff.mp h).2)

/-- The texts that taking off brackets and parentheses leads to. -/
abbrev shavings : String → List String := shortenings shorter

/-- The texts of a table, and one more. -/
def texts (T : TypeTable) (t : String) : List String :=
  normalize t :: (T.aliases.values ++ T.structs.values.flatMap Record.memberTypes)

theorem textWeight_flatMap (rs : List Record) :
    textWeight (rs.flatMap Record.memberTypes) = total (fun r => textWeight r.memberTypes) rs := by
  induction rs with
  | nil => rfl
  | cons r rs ih => rw [List.flatMap_cons, textWeight_append, ih, total_cons]

theorem length_texts_le (T : TypeTable) (t : String) :
    ((T.texts t).flatMap shavings).length ≤
      (normalize t).length + 1 + (textWeight T.aliases.values + T.memberWeight) := by
  have htexts : textWeight (T.texts t) =
      (normalize t).length + 1 + (textWeight T.aliases.values + T.memberWeight) := by
    rw [memberWeight, ← textWeight_flatMap, ← textWeight_append]
    rfl
  exact htexts ▸ length_flatMap_shortenings_le shorter (T.texts t)

section Texts

variable {x : String} (hx : x ∈ (T.texts t).flatMap shavings)

theorem normalize_mem_texts : normalize t ∈ (T.texts t).flatMap shavings :=
  List.mem_flatMap.mpr ⟨_, List.mem_cons_self, mem_shortenings_self shorter _⟩

theorem Mentions.mem_texts (h : T.Mentions n u) (t : String) :
    u ∈ (T.texts t).flatMap shavings := by
  refine List.mem_flatMap.mpr ⟨u, List.mem_cons_of_mem _ (List.mem_append.mpr ?_),
    mem_shortenings_self shorter u⟩
  rcases h with ha | ⟨r, hr, hu⟩
  · exact .inl (mem_values_of_get? ha)
  · exact .inr (List.mem_flatMap.mpr ⟨r, mem_values_of_get? hr, hu⟩)

include hx

theorem shorter_mem_texts (hlt : (shorter x).length < x.length) :
    shorter x ∈ (T.texts t).flatMap shavings := by
  obtain ⟨s, hs, hxs⟩ := List.mem_flatMap.mp hx
  exact List.mem_flatMap.mpr ⟨s, hs, cut_mem_shortenings hxs hlt⟩

end Texts

/-- What a type is made of is cut from it, or stands in the table. -/
theorem part_cases (h : T.Part t u) :
    (u = shorter t ∧ (shorter t).length < t.length) ∨ T.Mentions (normalize t) u := by
  have hnorm := length_normalize_le t
  have hbr := shorter_bracket (t := t)
  unfold Part form at h
  unfold shorter at hbr ⊢
  dsimp only at h hbr ⊢
  generalize normalize t = n at h hnorm hbr ⊢
  split at h
  · cases h
  split at h
  · next hbracket =>
    split at h
    · cases List.mem_singleton.mp h
      exact .inl ⟨(hbr hbracket).1.symm, (hbr hbracket).2⟩
    · cases h
  next hbracket =>
  split at h
  · next hparens =>
    cases List.mem_singleton.mp h
    rw [if_neg hbracket]
    exact .inl ⟨rfl, Nat.lt_of_lt_of_le (length_inside_lt hparens) hnorm⟩
  split at h
  · cases h
  cases ha : T.aliases.get? n with
  | some w =>
    rw [ha] at h
    exact .inr (.inl (ha.trans (congrArg some (List.mem_singleton.mp h).symm)))
  | none =>
    rw [ha] at h
    cases hr : T.structs.get? n with
    | none =>
      rw [hr] at h
      cases h
    | some r =>
      rw [hr] at h
      exact .inr (.inr ⟨r, hr, h⟩)

/-- Ways down are no longer than the texts of the table allow. -/
theorem downWithin_sizeBound (hT : ∀ t, ¬ Relation.TransGen T.Part t t) (t : String) :
    DownWithin T.Part (T.sizeBound t) t := by
  have hclosed : ∀ x ∈ (T.texts t).flatMap shavings, ∀ y, T.Part x y →
      y ∈ (T.texts t).flatMap shavings := by
    intro x hx y hy
    rcases part_cases hy with ⟨rfl, hlt⟩ | hy
    · exact shorter_mem_texts hx hlt
    · exact hy.mem_texts t
  have hle := T.length_texts_le t
  have hnorm : DownWithin T.Part (T.sizeBound t) (normalize t) := by
    refine downWithin_of_path hT hclosed _ [] _ List.nodup_nil (List.nil_subset _)
      normalize_mem_texts (by simp) ?_
    rw [List.length_nil]
    unfold sizeBound
    omega
  exact fun u hu => hnorm u (by rwa [Part, form_normalize])

theorem Acyclic.downWithin (hT : T.Acyclic) {k : Nat}
    (hk : (normalize t).length + 1 + (textWeight T.aliases.values + T.memberWeight) < k) :
    DownWithin T.MadeOf k (normalize t) := by
  have hclosed : ∀ x ∈ ((T.texts t).flatMap shavings).map normalize, ∀ y, T.MadeOf x y →
      y ∈ ((T.texts t).flatMap shavings).map normalize := by
    intro x hx y hy
    obtain ⟨s, hs, rfl⟩ := List.mem_map.mp hx
    rcases madeOf_cases hy with ⟨hbracket, he⟩ | ⟨u, hu, he⟩
    · obtain ⟨hshorter, hlt⟩ := shorter_bracket hbracket
      rw [he, cutType, ← hshorter]
      exact List.mem_map_of_mem (shorter_mem_texts hs hlt)
    · rw [he]
      exact List.mem_map_of_mem (hu.mem_texts t)
  have hle := T.length_texts_le t
  refine downWithin_of_path hT hclosed k [] _ List.nodup_nil (List.nil_subset _) ?_ (by simp) ?_
  · exact List.mem_map.mpr ⟨_, normalize_mem_texts, normalize_normalize t⟩
  · rw [List.length_map, List.length_nil]
    omega

/-! ## One step of finding a size -/

/-- Finds the size of a type of the given form and the normal form `n`. -/
def sizeAs (sizeOf : String → TypeM Nat) (n : String) : TypeForm → TypeM Nat
  | .basic => return 1
  | .array base k => do
    let s ← sizeOf base
    return 1 + s * k
  | .parens inner => sizeOf inner
  | .typedef target => do
    let s ← sizeOf target
    modify fun T => { T with visited := T.visited.insert n, sizes := T.sizes.set n s }
    return s
  | .struct types => do
    let T ← get
    if T.visited.contains n then
      match T.sizes.get? n with
      | some s => return s
      | none => throw .sizeUnknown
    else do
      modify fun T => { T with visited := T.visited.insert n }
      modify fun T => T.setSize n fun _ => 1
      addMembers sizeOf n types
      let s := ((← get).structs.get? n).elim 0 Record.size
      modify fun T => { T with sizes := T.sizes.set n s }
      return s
  | .unknown => throw .undefinedType

/-- The name is neither a typedef nor a built-in type, so that it can be that of a struct. -/
structure Tag (T : TypeTable) (n : String) : Prop where
  clean : isClean n = true
  unaliased : T.aliases.get? n = none
  builtin : T.isBuiltin n = false

theorem tag_of_struct {types : List String} (h : T.form t = .struct types) :
    T.Tag (normalize t) := by
  unfold form at h
  dsimp only at h
  generalize normalize t = n at h ⊢
  split at h
  · cases h
  next hbasic =>
  split at h
  · split at h
    · cases h
    · cases h
  split at h
  · cases h
  split at h
  · cases h
  next hclean =>
  cases ha : T.aliases.get? n with
  | some target =>
    rw [ha] at h
    cases h
  | none =>
    rw [Bool.or_eq_true, not_or] at hbasic
    exact ⟨by simpa using hclean, ha, Bool.eq_false_iff.mpr hbasic.2⟩

/-- A name of a struct is read as a struct, if there is one. -/
theorem Tag.form (h : T.Tag (normalize t)) :
    T.form t = .unknown ∨ ∃ types, T.form t = .struct types := by
  obtain ⟨hstar, hbracket, hparens⟩ := shape_of_isClean h.clean
  have hbasic : T.isBasic (normalize t) = false := by
    rw [isBasic, normalize_normalize, h.builtin, hstar]
    rfl
  rw [← form_normalize, form_name (normalize_normalize t) hbasic hbracket hparens, h.clean,
    h.unaliased]
  cases T.structs.get? (normalize t) with
  | none => exact .inl rfl
  | some r => exact .inr ⟨_, rfl⟩

/-- A type that cannot be read has no size, unless one was remembered.  If it has a name of a
struct, the name has been asked for. -/
theorem sizeWithin_succ (k : Nat) (T : TypeTable) (t : String) :
    if T.form t = .unknown then T.sizes.get? (normalize t) = none →
        ∃ e T', sizeWithin (k + 1) t T = .error e T' ∧
          (normalize t ∉ T.visited → e = faultOf t) ∧
          (T' = T ∧ (T.Tag (normalize t) → normalize t ∈ T.visited) ∨
            T.Tag (normalize t) ∧ normalize t ∉ T.visited ∧
              T' = { T with visited := T.visited.insert (normalize t) })
    else sizeWithin (k + 1) t T = sizeAs (sizeWithin k) (normalize t) (T.form t) T := by
  have hget : (get : TypeM TypeTable) T = .ok T T := rfl
  unfold sizeWithin form faultOf
  dsimp only
  rw [bind_of_ok hget]
  generalize normalize t = n
  by_cases hstar : (endsInStar n || T.isBuiltin n) = true
  · rw [if_pos hstar, if_pos hstar]
    rfl
  rw [if_neg hstar, if_neg hstar]
  by_cases hbracket : endsInBracket n = true
  · rw [if_pos hbracket, if_pos hbracket]
    cases hk : arrayLength (arrayParts n).2 with
    | error e =>
      refine fun _ => ⟨e, T, rfl, fun _ => (if_pos hbracket).symm, .inl ⟨rfl, fun htag => ?_⟩⟩
      cases hbracket.symm.trans (shape_of_isClean htag.clean).2.1
    | ok k =>
      rw [bind_of_ok (orFault_of_ok rfl T)]
      rfl
  rw [if_neg hbracket, if_neg hbracket, if_neg hbracket]
  by_cases hparens : inParens n = true
  · rw [if_pos hparens, if_pos hparens]
    rfl
  rw [if_neg hparens, if_neg hparens]
  by_cases hclean : (!TypeName.isClean n) = true
  · rw [if_pos hclean, if_pos hclean, if_pos hclean]
    refine fun _ => ⟨_, _, rfl, fun _ => rfl, .inl ⟨rfl, fun htag => ?_⟩⟩
    rw [htag.clean] at hclean
    cases hclean
  rw [if_neg hclean, if_neg hclean, if_neg hclean]
  cases ha : T.aliases.get? n with
  | some target => rfl
  | none =>
    have hseen : T.visited.contains n = true ↔ n ∈ T.visited := List.contains_iff_mem
    cases hr : T.structs.get? n with
    | none =>
      intro hsize
      by_cases hv : n ∈ T.visited
      · refine ⟨.sizeUnknown, T, ?_, fun hnew => absurd hv hnew, .inl ⟨rfl, fun _ => hv⟩⟩
        refine (congrFun (if_pos (hseen.mpr hv)) T).trans ?_
        rw [hsize]
        rfl
      · refine ⟨_, _, congrFun (if_neg (hseen.not.mpr hv)) T, fun _ => rfl, .inr ⟨?_, hv, rfl⟩⟩
        rw [Bool.or_eq_true, not_or] at hstar
        exact ⟨by simpa using hclean, ha, Bool.eq_false_iff.mpr hstar.2⟩
    | some r =>
      rw [Option.map_some, Option.getD_some, sizeAs]
      refine Eq.trans ?_ (bind_of_ok hget).symm
      by_cases hv : T.visited.contains n = true
      · exact (congrFun (if_pos hv) T).trans (congrFun (if_pos hv) T).symm
      · exact (congrFun (if_neg hv) T).trans (congrFun (if_neg hv) T).symm

/-! ## What is remembered on the way -/

/-- The table without anything about sizes. -/
def unsized (T : TypeTable) : TypeTable :=
  { T with
    structs := ⟨T.structs.entries.map fun e => (e.1, { e.2 with size := 0 })⟩
    sizes := {}
    visited := {} }

theorem lookup_unsized (n : String) : ∀ es : List (String × Record),
    lookup n (es.map fun e => (e.1, { e.2 with size := 0 })) =
      (lookup n es).map fun r => { r with size := 0 }
  | [] => rfl
  | e :: es => by
      rw [List.map_cons, lookup, lookup]
      split
      · rfl
      · exact lookup_unsized n es

theorem get?_unsized (T : TypeTable) (n : String) :
    T.unsized.structs.get? n = (T.structs.get? n).map fun r => { r with size := 0 } :=
  lookup_unsized n T.structs.entries

variable {r : Record} {path stuck : List String}

theorem put_unsized {n : String} (k : Nat) : ∀ {es : List (String × Record)},
    lookup n es = some r →
    (put n { r with size := k } es).map (fun e => (e.1, { e.2 with size := 0 })) =
      es.map fun e => (e.1, { e.2 with size := 0 })
  | e :: es, h => by
      rw [lookup] at h
      rw [put]
      split at h
      · next he =>
        cases h
        rw [if_pos he]
        rfl
      · next hne =>
        rw [if_neg hne, List.map_cons, List.map_cons, put_unsized k h]

theorem unsized_setSize (T : TypeTable) (n : String) (f : Nat → Nat) :
    (T.setSize n f).unsized = T.unsized := by
  unfold setSize
  cases hr : T.structs.get? n with
  | none => rfl
  | some r =>
    have hput := put_unsized (f r.size) hr
    unfold unsized
    dsimp only [Table.set]
    rw [hput]

theorem get?_setSize (hr : T.structs.get? n = some r) (f : Nat → Nat) (n' : String) :
    (T.setSize n f).structs.get? n' =
      if n = n' then some { r with size := f r.size } else T.structs.get? n' := by
  rw [setSize, hr]
  exact get?_set ..

@[simp] theorem visited_setSize (T : TypeTable) (n : String) (f : Nat → Nat) :
    (T.setSize n f).visited = T.visited := by
  unfold setSize
  split
  · rfl
  · rfl

/-- Two tables say the same about types. -/
structure SameTypes (T T' : TypeTable) : Prop where
  aliases : ∀ n, T'.aliases.get? n = T.aliases.get? n
  structs : ∀ n, (T'.structs.get? n).map Record.memberTypes =
    (T.structs.get? n).map Record.memberTypes
  isBuiltin : ∀ n, T'.isBuiltin n = T.isBuiltin n

theorem SameTypes.contains_structs (h : SameTypes T T') (n : String) :
    T'.structs.contains n = T.structs.contains n := by
  have hn := congrArg Option.isSome (h.structs n)
  rwa [Option.isSome_map, Option.isSome_map] at hn

theorem SameTypes.form (h : SameTypes T T') : T'.form = T.form := by
  funext t
  have hstruct : ∀ n, ((T'.structs.get? n).map fun r => TypeForm.struct r.memberTypes) =
      (T.structs.get? n).map fun r => TypeForm.struct r.memberTypes := fun n => by
    have := congrArg (Option.map TypeForm.struct) (h.structs n)
    rwa [Option.map_map, Option.map_map] at this
  unfold TypeTable.form
  simp only [h.aliases, h.isBuiltin, hstruct]

theorem sameTypes_of_unsized (h : T'.unsized = T.unsized) : SameTypes T T' where
  aliases n := by
    have haliases : T'.aliases = T.aliases := (mk.inj h).2.1
    rw [haliases]
  structs n := by
    have hn := congrArg (fun T => (T.structs.get? n).map Record.memberTypes) h
    simpa only [get?_unsized, Option.map_map, Function.comp_def] using hn
  isBuiltin n := by
    have henums : T'.enums = T.enums := (mk.inj h).2.2.1
    rw [isBuiltin, isBuiltin, henums]

/-- What the table `T'` remembers is right for the types of `T`.  The structs on the path are being
measured: they were asked for and have no size yet. -/
structure Found (T : TypeTable) (path : List String) (T' : TypeTable) : Prop where
  same : T'.unsized = T.unsized
  right : ∀ n s, T'.sizes.get? n = some s → Measures T.form n s ∧ T.Formed n
  asked : ∀ n s, T'.sizes.get? n = some s → n ∈ T'.visited
  known : ∀ n ∈ T'.visited, n ∈ path ∨ ∃ s, T'.sizes.get? n = some s
  begun : ∀ n ∈ path, n ∈ T'.visited
  pending : ∀ n ∈ path, T'.sizes.get? n = none
  noted : ∀ n s r, T'.sizes.get? n = some s → T'.structs.get? n = some r →
    T.aliases.get? n = none → r.size = s

/-- What is remembered stays, and structs that are being measured are left alone. -/
structure Later (path : List String) (T' T'' : TypeTable) : Prop where
  visited : ∀ n ∈ T'.visited, n ∈ T''.visited
  untouched : ∀ p ∈ path, T''.structs.get? p = T'.structs.get? p

section Found

variable {path : List String}

theorem Later.refl (path : List String) (T' : TypeTable) : Later path T' T' :=
  ⟨fun _ hn => hn, fun _ _ => rfl⟩

theorem Later.trans {T₁ T₂ T₃ : TypeTable} (h : Later path T₁ T₂) (h' : Later path T₂ T₃) :
    Later path T₁ T₃ :=
  ⟨fun n hn => h'.visited n (h.visited n hn),
    fun p hp => (h'.untouched p hp).trans (h.untouched p hp)⟩

variable (h : Found T path T')

include h

theorem Found.form : T'.form = T.form := (sameTypes_of_unsized h.same).form

theorem Found.tag : T'.Tag n ↔ T.Tag n := by
  have hs := sameTypes_of_unsized h.same
  constructor
  · rintro ⟨hclean, halias, hbuiltin⟩
    exact ⟨hclean, hs.aliases n ▸ halias, hs.isBuiltin n ▸ hbuiltin⟩
  · rintro ⟨hclean, halias, hbuiltin⟩
    exact ⟨hclean, (hs.aliases n).trans halias, (hs.isBuiltin n).trans hbuiltin⟩

theorem Found.exists_struct {r : Record} (hr : T.structs.get? n = some r) :
    ∃ r', T'.structs.get? n = some r' := by
  have hn := (sameTypes_of_unsized h.same).structs n
  rw [hr, Option.map_some, Option.map_eq_some_iff] at hn
  obtain ⟨r', hr', _⟩ := hn
  exact ⟨r', hr'⟩

/-- A struct that was not asked for comes to the path. -/
theorem Found.enter (hnew : n ∉ T'.visited) :
    Found T (n :: path) { T' with visited := T'.visited.insert n } where
  same := h.same
  right := h.right
  asked k s hs := NameSet.mem_insert.mpr (.inr (h.asked k s hs))
  known k hk := by
    rcases NameSet.mem_insert.mp hk with rfl | hk
    · exact .inl List.mem_cons_self
    · exact (h.known k hk).imp_left (List.mem_cons_of_mem _)
  begun k hk := NameSet.mem_insert.mpr ((List.mem_cons.mp hk).imp_right (h.begun k))
  pending k hk := by
    rcases List.mem_cons.mp hk with rfl | hk
    · cases hs : T'.sizes.get? k with
      | none => rfl
      | some s => exact absurd (h.asked k s hs) hnew
    · exact h.pending k hk
  noted := h.noted

/-- The size of a struct on the path is not yet what it will be. -/
theorem Found.setSize (hn : n ∈ path) (f : Nat → Nat) : Found T path (T'.setSize n f) := by
  have hsame := (T'.unsized_setSize n f).trans h.same
  cases hr : T'.structs.get? n with
  | none =>
    rw [TypeTable.setSize, hr]
    exact h
  | some r =>
    have hget := get?_setSize hr f
    rw [TypeTable.setSize, hr] at hsame hget ⊢
    refine ⟨hsame, h.right, h.asked, h.known, h.begun, h.pending, fun k s r' hs hr' halias => ?_⟩
    have hne : n ≠ k := by
      rintro rfl
      rw [h.pending n hn] at hs
      cases hs
    rw [hget, if_neg hne] at hr'
    exact h.noted k s r' hs hr' halias

/-- The size of a type is noted.  If it is a struct on the path, it leaves the path. -/
theorem Found.note {path' : List String} {V : NameSet} {s : Nat}
    (hpath : ∀ k ∈ path', k ∈ path ∧ k ≠ n) (hleft : ∀ k ∈ path, k = n ∨ k ∈ path')
    (hV : ∀ k, k ∈ V ↔ k = n ∨ k ∈ T'.visited) (hn : Measures T.form n s) (hformed : T.Formed n)
    (hsize : ∀ r, T'.structs.get? n = some r → T.aliases.get? n = none → r.size = s) :
    Found T path' { T' with visited := V, sizes := T'.sizes.set n s } := by
  refine ⟨h.same, fun k s' hs => ?_, fun k s' hs => ?_, fun k hk => ?_,
    fun k hk => (hV k).mpr (.inr (h.begun k (hpath k hk).1)), fun k hk => ?_,
    fun k s' r hs hr halias => ?_⟩
  · rw [get?_set] at hs
    split at hs
    · next he =>
      cases hs
      exact he ▸ ⟨hn, hformed⟩
    · exact h.right k s' hs
  · rw [get?_set] at hs
    refine (hV k).mpr ?_
    split at hs
    · next he => exact .inl he.symm
    · exact .inr (h.asked k s' hs)
  · rw [get?_set]
    split
    · exact .inr ⟨s, rfl⟩
    · next hne =>
      have hk' := h.known k (((hV k).mp hk).resolve_left (Ne.symm hne))
      exact hk'.imp_left fun hm => (hleft k hm).resolve_left (Ne.symm hne)
  · rw [get?_set, if_neg (hpath k hk).2.symm]
    exact h.pending k (hpath k hk).1
  · rw [get?_set] at hs
    split at hs
    · next he =>
      subst he
      cases hs
      exact hsize r hr halias
    · exact h.noted k s' r hs hr halias

end Found

theorem Found.sizeBound (h : Found T path T') (t : String) : T'.sizeBound t = T.sizeBound t := by
  have hbound : ∀ T : TypeTable, T.sizeBound t = T.unsized.sizeBound t := by
    intro T
    unfold TypeTable.sizeBound memberWeight unsized values
    simp only [List.map_map, total_map, Function.comp_def]
  rw [hbound T', h.same, ← hbound]

/-! ## Finding a size -/

/-- The size of the type has been found. -/
structure FoundSize (T : TypeTable) (path : List String) (t : String) (T' : TypeTable) (s : Nat)
    (T'' : TypeTable) : Prop where
  measures : Measures T.form t s
  found : Found T path T''
  later : Later path T' T''
  asked : ∀ types, T.form t = .struct types → normalize t ∈ T''.visited

/-- The types that a type is made of, itself among them. -/
abbrev Below (T : TypeTable) : String → String → Prop := Relation.ReflTransGen T.Part

/-- The type is made of one that cannot be read, or that has one of the names. -/
def Blocked (T : TypeTable) (stuck : List String) (t : String) : Prop :=
  ∃ u, T.Below t u ∧ (T.form u = .unknown ∨ normalize u ∈ stuck)

theorem Blocked.part (h : T.Blocked stuck u) (hu : T.Part t u) : T.Blocked stuck t :=
  h.imp fun _ hv => ⟨.head hu hv.1, hv.2⟩

/-- Finding the size comes to a fault: that of the first type which cannot be read. -/
inductive Stops (T : TypeTable) : String → Fault → Prop where
  | unknown {t : String} : T.form t = .unknown → Stops T t (faultOf t)
  | part {t u : String} {before after : List String} {e : Fault} :
      (T.form t).parts = before ++ u :: after → (∀ v ∈ before, T.Formed v) → Stops T u e →
      Stops T t e

/-- The size of the type has not been found.  Some names are stuck, since they were asked for and
have no size, and more may have come to them. -/
structure Failed (T : TypeTable) (stuck path : List String) (t : String) (e : Fault)
    (T'' : TypeTable) : Prop where
  blocked : T.Blocked stuck t
  stops : (∀ u, T.Below t u → normalize u ∉ stuck) → T.Stops t e
  left : ∃ more, Found T (more ++ path) T'' ∧
    (T.Tag (normalize t) → normalize t ∈ more ++ path) ∧
    ∀ n ∈ more, T.Tag n ∧ ∃ v, T.Below t v ∧ normalize v = n ∧ T.Blocked stuck v

/-- The size of the type is found, or else the type is blocked. -/
def Finds (T : TypeTable) (stuck path : List String) (x : TypeM Nat) (t : String)
    (T' : TypeTable) : Prop :=
  Ends x T' (fun s T'' => T.Formed t ∧ FoundSize T path t T' s T'') (Failed T stuck path t)

/-- What is read as one other type has no size if that has none. -/
theorem Failed.one {e : Fault} {T'' : TypeTable}
    (h : Failed T stuck path u e T'') (hparts : (T.form t).parts = [u])
    (hform : ∀ types, T.form t ≠ .struct types) : Failed T stuck path t e T'' := by
  have htag : ¬ T.Tag (normalize t) := fun htag => by
    rcases htag.form with hf | ⟨types, hf⟩
    · rw [hf] at hparts
      cases hparts
    · exact hform types hf
  have hu : T.Part t u := by
    rw [Part, hparts]
    exact List.mem_cons_self
  obtain ⟨more, hfound, _, hmore⟩ := h.left
  refine ⟨h.blocked.part hu, fun hclear => ?_, more, hfound, fun h => absurd h htag, fun n hn => ?_⟩
  · have hfirst : (T.form t).parts = [] ++ u :: [] := hparts
    exact .part hfirst (by simp) (h.stops fun v hv => hclear v (.head hu hv))
  · exact (hmore n hn).imp_right (Exists.imp fun _ hv => ⟨.head hu hv.1, hv.2⟩)

/-- The members of a struct are measured one after the other. -/
theorem addMembers_ends {sizeOf : String → TypeM Nat} (hn : n ∉ path) :
    ∀ {types : List String} {T' : TypeTable} {r : Record}, Found T (n :: path) T' →
      T'.structs.get? n = some r →
      (∀ t ∈ types, ∀ T', Found T (n :: path) T' → Finds T stuck (n :: path) (sizeOf t) t T') →
      Ends (addMembers sizeOf n types) T'
        (fun _ T'' => (∀ t ∈ types, T.Formed t) ∧ ∃ ks, List.Forall₂ (Measures T.form) types ks ∧
          Found T (n :: path) T'' ∧ Later path T' T'' ∧ ∃ r', T''.structs.get? n = some r' ∧
          r'.size = r.size + total id ks)
        fun e T'' => ∃ before u after, types = before ++ u :: after ∧ (∀ v ∈ before, T.Formed v) ∧
          Failed T stuck (n :: path) u e T''
  | [], T', r, h, hr, _ => Ends.pure ⟨by simp, [], .nil, h, .refl path T', r, hr, rfl⟩
  | t :: types, T', r, h, hr, hsize => by
      refine Ends.bind (Ends.mono (hsize t List.mem_cons_self T' h) ?_ fun e T₁ hfail =>
        ⟨[], t, types, rfl, by simp, hfail⟩)
      rintro k T₁ ⟨hformed, hk⟩
      have hr₁ : T₁.structs.get? n = some r :=
        (hk.later.untouched n List.mem_cons_self).trans hr
      have hget := get?_setSize hr₁ (· + k)
      refine Ends.bind_ok rfl (Ends.mono (addMembers_ends hn
        (hk.found.setSize List.mem_cons_self (· + k)) ((hget n).trans (if_pos rfl))
        fun u hu => hsize u (List.mem_cons_of_mem _ hu)) ?_ ?_)
      · rintro _ T₂ ⟨hrest, ks, hks, h₂, hlater, r', hr', hsum⟩
        refine ⟨List.forall_mem_cons.mpr ⟨hformed, hrest⟩, k :: ks, .cons hk.measures hks, h₂,
          ⟨fun m hm => hlater.visited m ?_, fun p hp => ?_⟩, r', hr', ?_⟩
        · rw [visited_setSize]
          exact hk.later.visited m hm
        · rw [hlater.untouched p hp, hget, if_neg fun (he : n = p) => hn (he ▸ hp)]
          exact hk.later.untouched p (List.mem_cons_of_mem _ hp)
        · rw [hsum, total_cons, id]
          dsimp only
          omega
      · rintro e T₂ ⟨before, u, after, rfl, hbefore, hfail⟩
        exact ⟨t :: before, u, after, rfl, List.forall_mem_cons.mpr ⟨hformed, hbefore⟩, hfail⟩

section Step

variable {sizeOf : String → TypeM Nat} {stuck path : List String}

/-- A typedef has the size of what it names. -/
theorem sizeTypedef_finds (hnew : normalize t ∉ path) {target : String}
    (hf : T.form t = .typedef target) (htarget : Finds T stuck path (sizeOf target) target T') :
    Finds T stuck path (sizeAs sizeOf (normalize t) (.typedef target)) t T' := by
  have hparts : (T.form t).parts = [target] := by rw [hf]; rfl
  refine Ends.bind (Ends.mono htarget ?_ fun e T₁ hfail => hfail.one hparts (by simp [hf]))
  rintro s T₁ ⟨hformed, hs⟩
  have hformed : T.Formed t := (formed_iff_of_parts (by simp [hf]) hparts).mpr hformed
  have ht : Measures T.form t s := .typedef hf hs.measures
  refine Ends.bind_ok rfl (Ends.pure ⟨hformed, ht, ?_, ?_, by simp [hf]⟩)
  · refine hs.found.note (n := normalize t) (fun k hk => ⟨hk, fun he => hnew (he ▸ hk)⟩)
      (fun k hk => .inr hk) (fun k => NameSet.mem_insert) (measures_normalize.mpr ht)
      (formed_normalize.mpr hformed) ?_
    intro r hr hnone
    cases hnone.symm.trans ((T.form_named t).1 target hf)
  · exact ⟨fun m hm => NameSet.mem_insert.mpr (.inr (hs.later.visited m hm)), hs.later.untouched⟩

variable {types : List String}

/-- A struct whose members are not all measured is left without a size. -/
theorem Failed.struct {before after : List String} {e : Fault} {T'' : TypeTable}
    (hf : T.form t = .struct types) (htypes : types = before ++ u :: after)
    (hbefore : ∀ v ∈ before, T.Formed v)
    (h : Failed T stuck (normalize t :: path) u e T'') : Failed T stuck path t e T'' := by
  have hparts : (T.form t).parts = before ++ u :: after := by rw [hf, ← htypes]; rfl
  have hu : T.Part t u := by
    rw [Part, hparts]
    exact List.mem_append_right _ List.mem_cons_self
  have hblocked := h.blocked.part hu
  obtain ⟨more, hfound, _, hmore⟩ := h.left
  rw [List.append_cons] at hfound
  refine ⟨hblocked, fun hclear => ?_, more ++ [normalize t], hfound, fun _ => ?_,
    fun n hn => ?_⟩
  · exact .part hparts hbefore (h.stops fun v hv => hclear v (.head hu hv))
  · simp
  · rcases List.mem_append.mp hn with hn | hn
    · exact (hmore n hn).imp_right (Exists.imp fun _ hv => ⟨.head hu hv.1, hv.2⟩)
    · cases List.mem_singleton.mp hn
      exact ⟨tag_of_struct hf, t, .refl, rfl, hblocked⟩

/-- A struct is measured once.  Its size is one and the sizes of its members. -/
theorem sizeStruct_finds (h : Found T path T')
    (hnew : normalize t ∈ path → normalize t ∈ stuck)
    (hf : T.form t = .struct types)
    (hmembers : ∀ u ∈ types, ∀ T', Found T (normalize t :: path) T' →
      Finds T stuck (normalize t :: path) (sizeOf u) u T') :
    Finds T stuck path (sizeAs sizeOf (normalize t) (.struct types)) t T' := by
  have hiff : T.Formed t ↔ ∀ u ∈ types, T.Formed u := by
    rw [formed_iff, hf]
    exact and_iff_right (by simp)
  refine Ends.bind_ok rfl ?_
  by_cases hv : T'.visited.contains (normalize t) = true
  · have hmem : normalize t ∈ T'.visited := List.contains_iff_mem.mp hv
    rw [if_pos hv]
    rcases h.known _ hmem with hpath | ⟨s, hs⟩
    · have hstuck := hnew hpath
      rw [h.pending _ hpath]
      exact Ends.throw ⟨⟨t, .refl, .inr hstuck⟩, fun hclear => absurd hstuck (hclear t .refl),
        [], h, fun _ => hpath, by simp⟩
    · obtain ⟨hmeasures, hformed⟩ := h.right _ s hs
      rw [hs]
      exact Ends.pure ⟨formed_normalize.mp hformed, measures_normalize.mp hmeasures, h,
        .refl path T', fun _ _ => hmem⟩
  rw [if_neg hv]
  have hv : normalize t ∉ T'.visited := fun hm => hv (List.contains_iff_mem.mpr hm)
  have hnew : normalize t ∉ path := fun hp => hv (h.begun _ hp)
  obtain ⟨r₀, hr₀, _⟩ := (T.form_named t).2 types hf
  obtain ⟨r, hr⟩ := h.exists_struct hr₀
  have henter := (h.enter hv).setSize List.mem_cons_self fun _ => 1
  have hgetSize := get?_setSize
    (T := { T' with visited := T'.visited.insert (normalize t) }) hr fun _ => 1
  refine Ends.bind_ok rfl (Ends.bind_ok rfl (Ends.bind (Ends.mono (addMembers_ends hnew henter
    ((hgetSize _).trans (if_pos rfl)) hmembers) ?_ ?_)))
  · rintro _ T₁ ⟨hall, ks, hks, h₁, hlater, r', hr', hsum⟩
    have hmem : normalize t ∈ T₁.visited := by
      refine hlater.visited _ ?_
      rw [visited_setSize]
      exact NameSet.mem_insert.mpr (.inl rfl)
    have ht : Measures T.form t r'.size := by
      rw [hsum]
      exact .struct hf hks
    refine Ends.bind_ok rfl ?_
    rw [hr']
    refine Ends.bind_ok rfl (Ends.pure ⟨hiff.mpr hall, ht,
      h₁.note (fun k hk => ⟨List.mem_cons_of_mem _ hk, fun he => hnew (he ▸ hk)⟩)
        (fun k hk => List.mem_cons.mp hk) (fun k => ?_) (measures_normalize.mpr ht)
        (formed_normalize.mpr (hiff.mpr hall)) fun r₂ hr₂ _ => ?_,
      ?_, fun _ _ => hmem⟩)
    · exact ⟨.inr, fun hk => hk.elim (fun he => he ▸ hmem) id⟩
    · cases hr'.symm.trans hr₂
      rfl
    · refine ⟨fun m hm => hlater.visited m ?_, fun p hp => ?_⟩
      · rw [visited_setSize]
        exact NameSet.mem_insert.mpr (.inr hm)
      · show T₁.structs.get? p = _
        have hne : normalize t ≠ p := fun he => hnew (he ▸ hp)
        rw [hlater.untouched p hp, hgetSize, if_neg hne]
  · rintro e T₁ ⟨before, u, after, htypes, hbefore, hfail⟩
    exact .struct hf htypes hbefore hfail

/-- A type that cannot be read is left without a size. -/
theorem sizeUnread_finds (h : Found T path T')
    (hnew : normalize t ∈ path → normalize t ∈ stuck)
    (hf : T.form t = .unknown) (k : Nat) : Finds T stuck path (sizeWithin (k + 1) t) t T' := by
  have hsize : T'.sizes.get? (normalize t) = none := by
    by_contra hne
    obtain ⟨s, hs⟩ := Option.ne_none_iff_exists'.mp hne
    exact (h.right _ s hs).2 _ .refl ((T.form_normalize t).trans hf)
  have hseen : normalize t ∈ T'.visited → normalize t ∈ path := fun hm =>
    (h.known _ hm).resolve_right fun hs => by
      obtain ⟨s, hs⟩ := hs
      cases hsize.symm.trans hs
  have hblocked : T.Blocked stuck t := ⟨t, .refl, .inl hf⟩
  have hstep := sizeWithin_succ k T' t
  rw [h.form, if_pos hf] at hstep
  obtain ⟨e, T₁, hrun, hfault, htable⟩ := hstep hsize
  have hstops : (∀ u, T.Below t u → normalize u ∉ stuck) → T.Stops t e := fun hclear =>
    hfault (fun hm => hclear t .refl (hnew (hseen hm))) ▸ .unknown hf
  refine Ends.of_error hrun ⟨hblocked, hstops, ?_⟩
  rcases htable with ⟨rfl, hasked⟩ | ⟨htag, hv, rfl⟩
  · exact ⟨[], h, fun htag => hseen (hasked (h.tag.mpr htag)), by simp⟩
  · refine ⟨[normalize t], h.enter hv, fun _ => List.mem_cons_self, fun n hn => ?_⟩
    cases List.mem_singleton.mp hn
    exact ⟨h.tag.mp htag, t, .refl, rfl, hblocked⟩

end Step

/-- The size of a type is found unless the type is blocked, whatever is remembered so far. -/
theorem sizeWithin_finds (hstuck : ∀ n ∈ stuck, T.Tag n) :
    ∀ (k : Nat) {t : String} {path : List String} {T' : TypeTable}, DownWithin T.Part k t →
      Found T path T' → (∀ p ∈ path, p ∈ stuck ∨ ∀ u, T.Below t u → normalize u ≠ p) →
      Finds T stuck path (sizeWithin k t) t T'
  | 0, _, _, _, hdown, _, _ => hdown.elim
  | k + 1, t, path, T', hdown, h, hpath => by
      have hnew : normalize t ∈ path → normalize t ∈ stuck := fun hm =>
        (hpath _ hm).resolve_right fun hne => hne t .refl rfl
      have hpart : ∀ u ∈ (T.form t).parts, ∀ path' T₁,
          (∀ p ∈ path', p = normalize t ∨ p ∈ path) → Found T path' T₁ →
          Finds T stuck path' (sizeWithin k u) u T₁ := by
        intro u hu path' T₁ hpath' h₁
        refine sizeWithin_finds hstuck k (hdown u hu) h₁ fun p hp => ?_
        rcases hpath' p hp with rfl | hp
        · -- a struct on the path does not come again, since it would be made of itself
          refine .inr fun v hv he => (hdown u hu).irrefl (.tail' hv ?_)
          rw [Part, ← form_normalize, he, form_normalize]
          exact hu
        · exact (hpath p hp).imp_right fun hne v hv => hne v (.head hu hv)
      by_cases hunknown : T.form t = .unknown
      · exact sizeUnread_finds h hnew hunknown k
      have hstep := sizeWithin_succ k T' t
      rw [h.form, if_neg hunknown] at hstep
      have hone : ∀ u, (T.form t).parts = [u] → Finds T stuck path (sizeWithin k u) u T' :=
        fun u hu =>
        hpart u (by rw [hu]; exact List.mem_cons_self) path T' (fun p hp => .inr hp) h
      refine Ends.of_eq hstep ?_
      cases hf : T.form t with
      | basic =>
        have hformed : T.Formed t := formed_iff.mpr ⟨hunknown, by simp [hf, TypeForm.parts]⟩
        exact Ends.pure ⟨hformed, .basic hf, h, .refl path T', by simp [hf]⟩
      | array base l =>
        have hparts : (T.form t).parts = [base] := by rw [hf]; rfl
        refine Ends.bind
          (Ends.mono (hone base hparts) ?_ fun _ _ hfail => hfail.one hparts (by simp [hf]))
        rintro s T₁ ⟨hformed, hs⟩
        rw [Nat.mul_comm]
        exact Ends.pure ⟨(formed_iff_of_parts hunknown hparts).mpr hformed, .array hf hs.measures,
          hs.found, hs.later, by simp [hf]⟩
      | parens inner =>
        have hparts : (T.form t).parts = [inner] := by rw [hf]; rfl
        refine Ends.mono (hone inner hparts) ?_ fun _ _ hfail => hfail.one hparts (by simp [hf])
        rintro s T₁ ⟨hformed, hs⟩
        exact ⟨(formed_iff_of_parts hunknown hparts).mpr hformed, .parens hf hs.measures, hs.found,
          hs.later, by simp [hf]⟩
      | typedef target =>
        refine sizeTypedef_finds (fun hm => ?_) hf (hone target (by rw [hf]; rfl))
        cases (hstuck _ (hnew hm)).unaliased.symm.trans ((T.form_named t).1 target hf)
      | struct types =>
        refine sizeStruct_finds h hnew hf fun u hu T₁ h₁ => ?_
        exact hpart u (by rwa [hf]) _ T₁ (fun p hp => List.mem_cons.mp hp) h₁
      | unknown => exact absurd hf hunknown

/-- The table before any size is known. -/
def forgetSizes (T : TypeTable) : TypeTable := { T with sizes := {}, visited := {} }

theorem found_forgetSizes (T : TypeTable) : Found T [] T.forgetSizes where
  same := rfl
  right n s hs := by cases hs
  asked n s hs := by cases hs
  known n hn := by cases hn
  begun n hn := by cases hn
  pending n hn := by cases hn
  noted n s r hs := by cases hs

theorem size_finds (hstuck : ∀ n ∈ stuck, T.Tag n) (hdown : DownWithin T.Part (T.sizeBound t) t)
    (h : Found T stuck T') : Finds T stuck stuck (size t) t T' := by
  refine Ends.bind_ok rfl ?_
  rw [h.sizeBound]
  exact sizeWithin_finds hstuck _ hdown h fun _ hp => .inl hp

/-- Where no name is stuck, finding a size decides whether the type is formed. -/
theorem size_decides (hdown : DownWithin T.Part (T.sizeBound t) t) (h : Found T [] T') :
    Decides (size t) T' (T.Formed t) (FoundSize T [] t T') := by
  refine Ends.mono (size_finds (by simp) hdown h) (fun _ _ hs => hs) fun _ _ hfail hformed => ?_
  obtain ⟨u, hu, hunknown | hmem⟩ := hfail.blocked
  · exact hformed u hu hunknown
  · cases hmem

/-- A type has a size if and only if finding it from the start ends without a fault. -/
theorem size_ok_iff (hT : T.Acyclic) (hbare : T.Bare (normalize t)) :
    (∃ k T', size t T.forgetSizes = .ok k T') ↔ T.Formed t := by
  have hdown : DownWithin T.MadeOf (T.sizeBound t) (normalize t) :=
    hT.downWithin (by unfold sizeBound; omega)
  exact Decides.ok_iff (size_decides (downWithin_part hdown hbare) T.found_forgetSizes)

end TypeTable

end Footprint
