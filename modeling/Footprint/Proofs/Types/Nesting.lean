import Footprint.Memory.Allocate
import Mathlib.Data.List.Perm.Subperm
import Mathlib.Logic.Relation

/-!
# How deep types nest

The layout of a variable follows its type: an array has elements, a struct has
members.  `HasPart` is one step down.  Where no type comes back on the way down,
the way is no longer than `layoutBound` says.

Every type on the way is one of finitely many texts.  A step down leads to the
target of a typedef, to the type of a member, or to the text before a bracket,
which is shorter than the text it is cut from.  `candidates` lists these texts.
On a way without repetition each of them stands once.
-/

namespace Footprint

open Footprint.TypeName

/-! ## Lengths of texts -/

namespace Text

theorem length_trim_le (cs : List Char) : (trim cs).length ≤ cs.length := by
  unfold trim trimRight trimLeft
  rw [List.length_reverse]
  calc (((cs.dropWhile isBlank).reverse).dropWhile isBlank).length
      ≤ (cs.dropWhile isBlank).reverse.length := (List.dropWhile_sublist _).length_le
    _ = (cs.dropWhile isBlank).length := List.length_reverse
    _ ≤ cs.length := (List.dropWhile_sublist _).length_le

/-- The characters of some words, and one more for each. -/
def weight (ws : List (List Char)) : Nat := total (fun w => w.length + 1) ws

@[simp] theorem weight_nil : weight [] = 0 := rfl

@[simp] theorem weight_cons (w : List Char) (ws : List (List Char)) :
    weight (w :: ws) = w.length + 1 + weight ws := by
  simp [weight]

theorem weight_consWord_le (c : Char) {ws : List (List Char)} {n : Nat} (h : weight ws ≤ n + 1) :
    weight (consWord c ws) ≤ n + 2 := by
  cases ws with
  | nil => simp [consWord]
  | cons w ws =>
    simp only [weight_cons] at h
    simp only [consWord, weight_cons, List.length_cons]
    omega

/-- Between two words of a text there is a blank. -/
theorem weight_words_le : ∀ cs : List Char,
    weight (words cs) ≤ cs.length + 1 ∧ (wordEnds cs → weight (words cs) ≤ cs.length)
  | [] => by simp [words]
  | c :: cs => by
      obtain ⟨hle, hends⟩ := weight_words_le cs
      unfold words
      by_cases hc : isBlank c
      · simp only [hc, if_true, List.length_cons]
        exact ⟨by omega, fun _ => hle⟩
      · have hnot : ¬ wordEnds (c :: cs) := hc
        refine ⟨?_, fun h => absurd h hnot⟩
        simp only [hc, Bool.false_eq_true, if_false, List.length_cons]
        split
        · next he =>
          have := hends he
          simp only [weight_cons, List.length_singleton]
          omega
        · exact weight_consWord_le c hle

theorem length_intercalate_le : ∀ ws : List (List Char),
    ([' '].intercalate ws).length ≤ weight ws - 1
  | [] => by simp
  | [w] => by simp
  | w :: w' :: ws => by
      have ih := length_intercalate_le (w' :: ws)
      rw [List.intercalate_cons_cons]
      simp only [List.length_append, List.length_singleton, weight_cons] at ih ⊢
      omega

theorem weight_filter_le (p : List Char → Bool) (ws : List (List Char)) :
    weight (ws.filter p) ≤ weight ws := by
  induction ws with
  | nil => simp
  | cons w ws ih =>
    rw [List.filter_cons]
    split
    · simp only [weight_cons]; omega
    · simp only [weight_cons]; omega

theorem length_cutAtLast?_lt {c : Char} : ∀ {cs before rest : List Char},
    cutAtLast? c cs = some (before, rest) → before.length < cs.length
  | d :: cs, before, rest, h => by
      unfold cutAtLast? at h
      split at h
      · next b r hb =>
        cases h
        exact Nat.succ_lt_succ (length_cutAtLast?_lt hb)
      · split at h
        · cases h
          simp
        · cases h

theorem exists_cutAtLast? {c : Char} : ∀ {cs : List Char}, c ∈ cs →
    ∃ before rest, cutAtLast? c cs = some (before, rest)
  | d :: cs, h => by
      unfold cutAtLast?
      by_cases hc : c ∈ cs
      · obtain ⟨before, rest, hb⟩ := exists_cutAtLast? hc
        exact ⟨d :: before, rest, by rw [hb]⟩
      · have hd : d = c := by
          cases List.mem_cons.mp h with
          | inl he => exact he.symm
          | inr hm => exact absurd hm hc
        cases hcut : cutAtLast? c cs with
        | none => exact ⟨[], cs, by simp [hd]⟩
        | some cut => exact ⟨d :: cut.1, cut.2, rfl⟩

end Text

namespace TypeName

/-- The words that stay in a normal form. -/
def kept (ws : List (List Char)) : List (List Char) :=
  ws.filter fun w => !qualifiers.contains (String.ofList w)

theorem toList_normalize (t : String) :
    (normalize t).toList = [' '].intercalate (kept (Text.words t.toList)) := by
  unfold normalize Text.wordsOf kept
  rw [String.toList_intercalate, List.filter_map, List.map_map]
  have hid : String.toList ∘ String.ofList = id := funext fun w => String.toList_ofList
  rw [hid, List.map_id]
  rfl

theorem length_normalize_le (t : String) : (normalize t).length ≤ t.length := by
  rw [← String.length_toList, toList_normalize, ← String.length_toList (s := t)]
  have hjoin := Text.length_intercalate_le (kept (Text.words t.toList))
  have hfilter := Text.weight_filter_le (fun w => !qualifiers.contains (String.ofList w))
    (Text.words t.toList)
  have hwords := (Text.weight_words_le t.toList).1
  unfold kept at hjoin ⊢
  omega

theorem length_arrayParts_lt {t : String} (h : '[' ∈ t.toList) :
    (arrayParts t).1.length < t.length := by
  obtain ⟨before, rest, hcut⟩ := Text.exists_cutAtLast? h
  unfold arrayParts
  rw [hcut]
  dsimp only
  rw [String.length_ofList, ← String.length_toList]
  exact Nat.lt_of_le_of_lt (Text.length_trim_le before) (Text.length_cutAtLast?_lt hcut)

theorem length_arrayParts_le (t : String) : (arrayParts t).1.length ≤ t.length := by
  by_cases h : '[' ∈ t.toList
  · exact Nat.le_of_lt (length_arrayParts_lt h)
  · unfold arrayParts
    split
    · next before rest hcut =>
      rw [String.length_ofList, ← String.length_toList]
      exact Nat.le_trans (Text.length_trim_le before)
        (Nat.le_of_lt (Text.length_cutAtLast?_lt hcut))
    · rw [String.length_ofList, ← String.length_toList]
      exact Nat.le_trans (Text.length_trim_le _) (List.dropLast_sublist _).length_le

end TypeName

/-! ## Ways down -/

section Down

variable {α : Type} {R : α → α → Prop}

theorem rank_lt_of_transGen {rank : α → Nat} (h : ∀ x y, R x y → rank y < rank x) {x y : α}
    (hxy : Relation.TransGen R x y) : rank y < rank x := by
  induction hxy with
  | single hy => exact h _ _ hy
  | tail _ hy ih => exact Nat.lt_trans (h _ _ hy) ih

/-- Ways down from `x` have fewer than `n` steps. -/
def DownWithin (R : α → α → Prop) : Nat → α → Prop
  | 0, _ => False
  | n + 1, x => ∀ y, R x y → DownWithin R n y

/-- Where nothing comes back to itself, a way down in a closed list is no longer than the list.
`path` holds what was passed on the way. -/
theorem downWithin_of_path (hR : ∀ x, ¬ Relation.TransGen R x x) {xs : List α}
    (hclosed : ∀ x ∈ xs, ∀ y, R x y → y ∈ xs) :
    ∀ (n : Nat) (path : List α) (x : α), path.Nodup → path ⊆ xs → x ∈ xs →
      (∀ c ∈ path, Relation.TransGen R c x) → xs.length < path.length + n → DownWithin R n x
  | 0, path, _, hn, hsub, _, _, hlt => by
      have hle := (hn.subperm hsub).length_le
      omega
  | n + 1, path, x, hn, hsub, hx, hpath, hlt => by
      intro y hy
      have hnew : x ∉ path := fun hm => hR x (hpath x hm)
      refine downWithin_of_path hR hclosed n (x :: path) y (List.nodup_cons.mpr ⟨hnew, hn⟩)
        (List.cons_subset.mpr ⟨hx, hsub⟩) (hclosed x hx y hy) ?_
        (by simp only [List.length_cons]; omega)
      intro c hc
      cases List.mem_cons.mp hc with
      | inl he => subst he; exact .single hy
      | inr hm => exact (hpath c hm).tail hy

theorem DownWithin.succ : ∀ {n : Nat} {x : α}, DownWithin R n x →
    DownWithin R (n + 1) x
  | 0, _, h => h.elim
  | _ + 1, _, h => fun y hy => (h y hy).succ

theorem DownWithin.irrefl : ∀ {n : Nat} {x : α}, DownWithin R n x →
    ¬ Relation.TransGen R x x
  | 0, _, h, _ => h
  | _ + 1, _, h, hx => by
      obtain ⟨y, hy, hyx⟩ := Relation.TransGen.head'_iff.mp hx
      exact (h y hy).irrefl (.tail' hyx hy)

theorem DownWithin.down {n : Nat} {x y : α} (h : DownWithin R n x)
    (hy : Relation.ReflTransGen R x y) : DownWithin R n y := by
  induction hy with
  | refl => exact h
  | tail _ hstep ih =>
    cases n with
    | zero => exact ih.elim
    | succ n => exact (ih _ hstep).succ

end Down

/-! ## Parts of types -/

namespace TypeTable

/-- A variable that is spelled with the type `t` and laid out as the type `d` has a part that is
laid out as another type. -/
inductive HasPart (T : TypeTable) (t d : String) : String → Prop where
  | element {base : String} {n : Nat} : T.isBasic d = false → T.isArray d = true →
      T.element t = .ok (base, n) → HasPart T t d (T.decode base)
  | member {r : Record} {type name : String} : T.isBasic d = false → T.isArray d = false →
      T.recordFor? d = some r → (type, name) ∈ r.members → HasPart T t d (T.decode type)

/-- A part of a variable is spelled with the type it is laid out as. -/
def Contains (T : TypeTable) (d d' : String) : Prop := T.HasPart d d d'

/-- No type contains itself. -/
def WellNested (T : TypeTable) : Prop := ∀ d, ¬ Relation.TransGen T.Contains d d

/-- Types of which every part has a smaller rank do not contain themselves. -/
theorem wellNested_of_rank {T : TypeTable} (rank : String → Nat)
    (h : ∀ d d', T.Contains d d' → rank d' < rank d) : T.WellNested :=
  fun _ hc => Nat.lt_irrefl _ (rank_lt_of_transGen h hc)

/-- Parts nest less than `n` deep. -/
def NestsWithin (T : TypeTable) : Nat → String → String → Prop
  | 0, _, _ => False
  | n + 1, t, d => ∀ d', T.HasPart t d d' → T.NestsWithin n d' d'

variable {T : TypeTable} {n : Nat} {d t s x base d' : String}

/-- A part of a variable nests as deep as ways down lead from its type. -/
theorem nestsWithin_iff_downWithin : T.NestsWithin n d d ↔ DownWithin T.Contains n d := by
  induction n generalizing d with
  | zero => rfl
  | succ n ih => exact forall_congr' fun _ => imp_congr_right fun _ => ih

/-- Where no type contains itself, types that lie in a closed list nest no deeper than the list is
long. -/
theorem nestsWithin_of_path (hT : T.WellNested) {types : List String}
    (hclosed : ∀ d ∈ types, ∀ d', T.Contains d d' → d' ∈ types) (n : Nat) (path : List String)
    (d : String) (hn : path.Nodup) (hsub : path ⊆ types) (hd : d ∈ types)
    (hpath : ∀ c ∈ path, Relation.TransGen T.Contains c d)
    (hlt : types.length < path.length + n) : T.NestsWithin n d d :=
  nestsWithin_iff_downWithin.mpr (downWithin_of_path hT hclosed n path d hn hsub hd hpath hlt)

/-! ## The types that a layout can meet -/

/-- The normal form of what stands before the last bracket. -/
def cutType (t : String) : String := normalize (arrayParts t).1

/-- The texts that shortening a text leads to. -/
def shortenings (cut : String → String) (t : String) : List String :=
  t :: if (cut t).length < t.length then shortenings cut (cut t) else []
termination_by t.length

section Shortenings

variable (cut : String → String)

theorem mem_shortenings_self (t : String) : t ∈ shortenings cut t := by
  rw [shortenings]
  exact List.mem_cons_self ..

theorem length_shortenings_le (t : String) : (shortenings cut t).length ≤ t.length + 1 := by
  induction t using shortenings.induct cut with
  | case1 t ih =>
    rw [shortenings]
    split
    · next hlt =>
      have := ih hlt
      simp only [List.length_cons]
      omega
    · simp

theorem length_flatMap_shortenings_le : ∀ ts : List String,
    (ts.flatMap (shortenings cut)).length ≤ textWeight ts
  | [] => by simp [textWeight]
  | t :: ts => by
      have ih := length_flatMap_shortenings_le ts
      have ht := length_shortenings_le cut t
      simp only [List.flatMap_cons, List.length_append, textWeight, total_cons] at ih ⊢
      omega

variable {cut}

/-- The list is closed under shortening. -/
theorem cut_mem_shortenings {t d : String} (hd : d ∈ shortenings cut t)
    (hlt : (cut d).length < d.length) : cut d ∈ shortenings cut t := by
  induction t using shortenings.induct cut with
  | case1 t ih =>
    rw [shortenings] at hd ⊢
    cases List.mem_cons.mp hd with
    | inl he =>
      subst he
      rw [if_pos hlt]
      exact List.mem_cons_of_mem _ (mem_shortenings_self cut _)
    | inr hm =>
      split at hm
      · next hlt' =>
        rw [if_pos hlt']
        exact List.mem_cons_of_mem _ (ih hlt' hm)
      · cases hm

end Shortenings

/-- The texts that cutting off brackets leads to. -/
abbrev pieces : String → List String := shortenings fun t => cutType (normalize t)

theorem length_cutType_lt (t : String) (h : '[' ∈ t.toList) : (cutType t).length < t.length :=
  Nat.lt_of_le_of_lt (length_normalize_le _) (length_arrayParts_lt h)

theorem cutType_mem_pieces (hd : d ∈ pieces t)
    (hb : '[' ∈ (normalize d).toList) : cutType (normalize d) ∈ pieces t :=
  cut_mem_shortenings hd
    (Nat.lt_of_lt_of_le (length_cutType_lt _ hb) (length_normalize_le d))

/-- The texts that types on the way down from `t` are cut from. -/
def sources (T : TypeTable) (t : String) : List String :=
  normalize t :: cutType (normalize t) ::
    (T.aliases.values.flatMap (fun w => [w, cutType w]) ++
      T.structs.values.flatMap fun r => r.memberTypes.map normalize)

/-- The types that can come on the way down from `t`. -/
def candidates (T : TypeTable) (t : String) : List String := (T.sources t).flatMap pieces

theorem length_cutType_le (t : String) : (cutType t).length ≤ t.length :=
  Nat.le_trans (length_normalize_le _) (length_arrayParts_le t)

theorem textWeight_append (ts ts' : List String) :
    textWeight (ts ++ ts') = textWeight ts + textWeight ts' := by
  simp [textWeight]

theorem textWeight_aliases_le : ∀ ws : List String,
    textWeight (ws.flatMap fun w => [w, cutType w]) ≤ 2 * textWeight ws
  | [] => by simp [textWeight]
  | w :: ws => by
      have ih := textWeight_aliases_le ws
      have hw := length_cutType_le w
      simp only [textWeight, List.flatMap_cons, total_append, total_cons, total_nil] at ih ⊢
      omega

theorem textWeight_normalize_le : ∀ ts : List String,
    textWeight (ts.map normalize) ≤ textWeight ts
  | [] => by simp [textWeight]
  | t :: ts => by
      have ih := textWeight_normalize_le ts
      have ht := length_normalize_le t
      simp only [textWeight, List.map_cons, total_cons] at ih ⊢
      omega

theorem textWeight_members_le : ∀ rs : List Record,
    textWeight (rs.flatMap fun r => r.memberTypes.map normalize) ≤
      total (fun r => textWeight r.memberTypes) rs
  | [] => by simp [textWeight]
  | r :: rs => by
      have ih := textWeight_members_le rs
      have hr := textWeight_normalize_le r.memberTypes
      rw [List.flatMap_cons, textWeight_append, total_cons]
      omega

/-- There are fewer candidates than the bound of a layout. -/
theorem length_candidates_lt (T : TypeTable) (m : Memory) (t : String) :
    (T.candidates t).length + 1 < Memory.layoutBound T m t := by
  have hle : ((T.sources t).flatMap pieces).length ≤ textWeight (T.sources t) :=
    length_flatMap_shortenings_le _ _
  have hcut := length_cutType_le (normalize t)
  have haliases := textWeight_aliases_le T.aliases.values
  have hmembers := textWeight_members_le T.structs.values
  have hsources : textWeight (T.sources t) =
      (normalize t).length + 1 + ((cutType (normalize t)).length + 1 +
        (textWeight (T.aliases.values.flatMap fun w => [w, cutType w]) +
          textWeight (T.structs.values.flatMap fun r =>
            r.memberTypes.map normalize))) := by
    rw [sources, ← textWeight_append]
    simp [textWeight]
  unfold candidates Memory.layoutBound memberWeight
  omega

/-! ## The way down stays among the candidates -/

theorem mem_candidates (hs : s ∈ T.sources t) (hd : d ∈ pieces s) : d ∈ T.candidates t :=
  List.mem_flatMap.mpr ⟨s, hs, hd⟩

theorem source_mem_candidates (hs : s ∈ T.sources t) : s ∈ T.candidates t :=
  mem_candidates hs (mem_shortenings_self _ s)

theorem alias_mem_sources {k w : String} (h : T.aliases.get? k = some w) (t : String) :
    w ∈ T.sources t ∧ cutType w ∈ T.sources t := by
  have hw : ∀ x ∈ [w, cutType w], x ∈ T.sources t := by
    intro x hx
    refine List.mem_cons_of_mem _ (List.mem_cons_of_mem _ (List.mem_append_left _ ?_))
    exact List.mem_flatMap.mpr ⟨w, Table.mem_values_of_get? h, hx⟩
  exact ⟨hw w (by simp), hw (cutType w) (by simp)⟩

/-- What a typedef names is a candidate, and so is what has no typedef. -/
theorem decode_mem (hx : normalize x ∈ T.candidates t) : T.decode x ∈ T.candidates t := by
  unfold decode
  dsimp only
  cases h : T.aliases.get? (normalize x) with
  | none => exact hx
  | some w => exact source_mem_candidates (alias_mem_sources h t).1

theorem decode_self_mem (T : TypeTable) (t : String) : T.decode t ∈ T.candidates t :=
  decode_mem (source_mem_candidates (List.mem_cons_self ..))

theorem element_base (h : T.element x = .ok (base, n)) :
    base = (arrayParts (T.decode x)).1 := by
  unfold element at h
  dsimp only at h
  split at h
  · cases hl : arrayLength (arrayParts (T.decode x)).2 with
    | error e => rw [hl] at h; cases h
    | ok k => rw [hl] at h; cases h; rfl
  · cases h

theorem element_mem (h : T.element x = .ok (base, n))
    (hc : cutType (T.decode x) ∈ T.candidates t) : T.decode base ∈ T.candidates t := by
  refine decode_mem ?_
  rw [element_base h]
  exact hc

theorem bracket_mem (h : T.isArray d = true) : '[' ∈ (T.decode d).toList := by
  unfold isArray endsInBracket at h
  simpa using (Bool.and_eq_true_iff.mp h).2

/-- Without typedefs an element has a shorter type than the array. -/
theorem length_element_lt (ha : T.aliases = {}) (harray : T.isArray d = true)
    (h : T.element d = .ok (base, n)) : (T.decode base).length < d.length := by
  have hdecode : ∀ x, T.decode x = normalize x := by
    intro x
    rw [decode, ha]
    rfl
  have hb : '[' ∈ (normalize d).toList := by
    rw [← hdecode]
    exact bracket_mem harray
  rw [hdecode, element_base h, hdecode]
  calc (cutType (normalize d)).length < (normalize d).length :=
        length_cutType_lt _ hb
    _ ≤ d.length := length_normalize_le d

/-- Without typedefs types do not contain themselves if tags are longer than the types of
members. -/
theorem wellNested_of_shorter (ha : T.aliases = {})
    (hstructs : ∀ e ∈ T.structs.entries, ∀ p ∈ e.2.members,
      (T.decode p.1).length + "struct ".length < e.1.length) : T.WellNested := by
  refine wellNested_of_rank String.length fun d d' hc => ?_
  cases hc with
  | element _ harray he => exact length_element_lt ha harray he
  | member _ _ hr hm =>
    unfold recordFor? at hr
    split at hr
    · next h =>
      cases hr
      have hlt := hstructs _ (Table.mem_of_lookup h) _ hm
      dsimp only at hlt
      omega
    · split at hr
      · cases hr
      · have hlt := hstructs _ (Table.mem_of_lookup hr) _ hm
        dsimp only at hlt
        rw [String.length_append] at hlt
        omega

theorem member_mem {type name : String} {r : Record} (hr : T.recordFor? d = some r)
    (hm : (type, name) ∈ r.members) : T.decode type ∈ T.candidates t := by
  have hmem : r ∈ T.structs.values := by
    unfold recordFor? at hr
    split at hr
    · next h => cases hr; exact Table.mem_values_of_get? h
    · split at hr
      · cases hr
      · exact Table.mem_values_of_get? hr
  refine decode_mem (source_mem_candidates ?_)
  refine List.mem_cons_of_mem _ (List.mem_cons_of_mem _ (List.mem_append_right _ ?_))
  exact List.mem_flatMap.mpr ⟨r, hmem, List.mem_map_of_mem (List.of_mem_zip hm).1⟩

theorem contains_mem (hd : d ∈ T.candidates t) (h : T.Contains d d') : d' ∈ T.candidates t := by
  cases h with
  | member _ _ hr hm => exact member_mem hr hm
  | element _ harray he =>
    refine element_mem he ?_
    have hb := bracket_mem harray
    unfold decode at hb ⊢
    dsimp only at hb ⊢
    cases ha : T.aliases.get? (normalize d) with
    | some w => exact source_mem_candidates (alias_mem_sources ha t).2
    | none =>
      rw [ha] at hb
      obtain ⟨s, hs, hp⟩ := List.mem_flatMap.mp hd
      exact mem_candidates hs (cutType_mem_pieces hp hb)

/-- A part of a variable is a candidate of the type the variable is spelled with. -/
theorem hasPart_mem (h : T.HasPart t (T.decode t) d') : d' ∈ T.candidates t := by
  cases h with
  | member _ _ hr hm => exact member_mem hr hm
  | element _ _ he =>
    refine element_mem he ?_
    unfold decode
    dsimp only
    cases ha : T.aliases.get? (normalize t) with
    | some w => exact source_mem_candidates (alias_mem_sources ha t).2
    | none => exact source_mem_candidates (List.mem_cons_of_mem _ (List.mem_cons_self ..))

/-- Where no type contains itself, the bound of a layout suffices for a part. -/
theorem WellNested.part (hT : T.WellNested) (m : Memory) (t : String) :
    T.NestsWithin (Memory.layoutBound T m t) (T.decode t) (T.decode t) := by
  have hlt := length_candidates_lt T m t
  exact nestsWithin_of_path hT (fun _ hd _ h => contains_mem hd h) _ [] _ List.nodup_nil
    (List.nil_subset _) (decode_self_mem T t) (by simp) (by simp only [List.length_nil]; omega)

/-- Where no type contains itself, the bound of a layout suffices for a declared variable. -/
theorem WellNested.root (hT : T.WellNested) (m : Memory) (t : String) :
    T.NestsWithin (Memory.layoutBound T m t) t (T.decode t) := by
  have hlt := length_candidates_lt T m t
  obtain ⟨n, hn⟩ : ∃ n, Memory.layoutBound T m t = n + 1 :=
    ⟨Memory.layoutBound T m t - 1, by omega⟩
  rw [hn]
  intro d' hd'
  exact nestsWithin_of_path hT (fun _ hd _ h => contains_mem hd h) n [] d' List.nodup_nil
    (List.nil_subset _) (hasPart_mem hd') (by simp) (by simp only [List.length_nil]; omega)

end TypeTable

end Footprint
