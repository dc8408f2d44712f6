import Footprint.Text.Cut

/-!
# Texts and the pieces they are made of

The tests on texts say how a text is put together: it starts with a piece if it
is the piece and something after it, and it ends with one if it is something and
the piece after it.  A cut at a character leaves what has no such character in
it.
-/

namespace Footprint.Text

variable {p s : String} {cs rest : List Char}

theorem afterPrefix?_eq_some {p : List Char} : afterPrefix? p cs = some rest ↔ cs = p ++ rest := by
  induction p generalizing cs with
  | nil => simp [afterPrefix?]
  | cons c p ih =>
    cases cs with
    | nil => simp [afterPrefix?]
    | cons d cs =>
      by_cases h : c = d
      · simp [afterPrefix?, h, ih]
      · simp [afterPrefix?, h, Ne.symm h]

theorem starts_iff : starts p s = true ↔ ∃ t, s = p ++ t := by
  rw [starts, Option.isSome_iff_exists]
  constructor
  · rintro ⟨rest, h⟩
    refine ⟨String.ofList rest, String.ext ?_⟩
    rw [String.toList_append, String.toList_ofList, afterPrefix?_eq_some.mp h]
  · rintro ⟨t, rfl⟩
    exact ⟨t.toList, afterPrefix?_eq_some.mpr String.toList_append⟩

theorem ends_iff : ends p s = true ↔ ∃ t, s = t ++ p := by
  rw [ends, List.isSuffixOf_iff_suffix]
  constructor
  · rintro ⟨cs, h⟩
    refine ⟨String.ofList cs, String.ext ?_⟩
    rw [String.toList_append, String.toList_ofList, h]
  · rintro ⟨t, rfl⟩
    exact ⟨t.toList, String.toList_append.symm⟩

/-! ## Cuts -/

theorem dropFirst_append (p s : String) : dropFirst p.length (p ++ s) = s := by
  rw [dropFirst, String.toList_append, ← String.length_toList, List.drop_left, String.ofList_toList]

theorem withoutSuffix_append (s p : String) : withoutSuffix p (s ++ p) = s := by
  rw [withoutSuffix, if_pos (ends_iff.mpr ⟨s, rfl⟩), String.toList_append, List.length_append,
    Nat.add_sub_cancel, List.take_left, String.ofList_toList]

theorem eq_of_cutAt? {p before : List Char} (h : cutAt? p cs = some (before, rest)) :
    cs = before ++ p ++ rest := by
  induction cs generalizing before with
  | nil =>
    obtain ⟨rest', hrest, heq⟩ := Option.map_eq_some_iff.mp h
    cases heq
    exact afterPrefix?_eq_some.mp hrest
  | cons c cs ih =>
    rw [cutAt?] at h
    split at h
    · next rest' hrest =>
      cases h
      exact afterPrefix?_eq_some.mp hrest
    · obtain ⟨⟨before', rest'⟩, hcut, heq⟩ := Option.map_eq_some_iff.mp h
      cases heq
      rw [ih hcut]
      rfl

theorem has_eq_false {c : Char} (hp : c ∈ p.toList) (hs : c ∉ s.toList) : has p s = false := by
  refine Bool.eq_false_iff.mpr fun h => ?_
  obtain ⟨cut, hcut⟩ := Option.isSome_iff_exists.mp h
  have hsame : s.toList = cut.1 ++ p.toList ++ cut.2 := eq_of_cutAt? hcut
  rw [hsame] at hs
  exact hs (List.mem_append_left _ (List.mem_append_right _ hp))

section Character

variable {c : Char} {p q : String} (hp : p.toList = [c]) (hq : c ∉ q.toList)
variable {cs : List Char} {s : String}

theorem cutAt?_of_notMem (h : c ∉ cs) : cutAt? [c] cs = none := by
  induction cs with
  | nil => rfl
  | cons d cs ih =>
    have hd : c ≠ d := fun he => h (he ▸ List.mem_cons_self ..)
    simp [cutAt?, afterPrefix?, hd, ih fun hc => h (List.mem_cons_of_mem d hc)]

theorem cutAt?_append (h : c ∉ cs) (rest : List Char) :
    cutAt? [c] (cs ++ c :: rest) = some (cs, rest) := by
  induction cs with
  | nil => simp [cutAt?, afterPrefix?]
  | cons d cs ih =>
    have hd : c ≠ d := fun he => h (he ▸ List.mem_cons_self ..)
    simp [cutAt?, afterPrefix?, hd, ih fun hc => h (List.mem_cons_of_mem d hc)]

theorem isSome_cutAt? (h : c ∈ cs) : (cutAt? [c] cs).isSome = true := by
  induction cs with
  | nil => cases h
  | cons d cs ih =>
    by_cases he : c = d
    · simp [cutAt?, afterPrefix?, he]
    · have hmem : c ∈ cs := by simpa [he] using h
      simp [cutAt?, afterPrefix?, he, ih hmem]

include hp in
theorem isSome_after? (h : c ∈ s.toList) : (after? p s).isSome = true := by
  unfold after?
  rw [Option.isSome_map, hp]
  exact isSome_cutAt? h

include hp hq

theorem before_append (m : String) : before p (q ++ p ++ m) = q := by
  have hcut : cutAt? p.toList (q ++ p ++ m).toList = some (q.toList, m.toList) := by
    rw [String.toList_append, String.toList_append, hp, List.append_assoc]
    exact cutAt?_append hq m.toList
  rw [before, hcut]
  exact String.ofList_toList

theorem exists_before (m : String) : ∃ m', before p (q ++ m) = q ++ m' := by
  by_cases hc : c ∈ m.toList
  · obtain ⟨as, bs, hm, has⟩ := List.eq_append_cons_of_mem hc
    have hcut : cutAt? p.toList (q ++ m).toList = some (q.toList ++ as, bs) := by
      rw [String.toList_append, hp, hm, ← List.append_assoc]
      exact cutAt?_append (by simp [hq, has]) bs
    refine ⟨String.ofList as, ?_⟩
    rw [before, hcut]
    simp
  · have hcut : cutAt? p.toList (q ++ m).toList = none := by
      rw [String.toList_append, hp]
      exact cutAt?_of_notMem (by simp [hq, hc])
    refine ⟨m, ?_⟩
    rw [before, hcut]

omit hq in
/-- A piece without the character that ends a text stands behind the last such character. -/
theorem exists_of_ends {e m : String} (he : c ∉ e.toList) (h : ends e (s ++ p ++ m) = true) :
    ∃ m', m = m' ++ e := by
  have hs : (s ++ p ++ m).toList = s.toList ++ c :: m.toList := by
    rw [String.toList_append, String.toList_append, hp, List.append_assoc]
    rfl
  have hsuffix : e.toList <:+ s.toList ++ c :: m.toList := by
    rw [← hs]
    exact List.isSuffixOf_iff_suffix.mp h
  have hm : e.toList <:+ m.toList := by
    rcases List.suffix_or_suffix_of_suffix hsuffix (List.suffix_append _ _) with hc | hc
    · rcases List.suffix_cons_iff.mp hc with heq | hm
      · exact absurd (heq ▸ List.mem_cons_self ..) he
      · exact hm
    · exact absurd (hc.subset (List.mem_cons_self ..)) he
  exact ends_iff.mp (List.isSuffixOf_iff_suffix.mpr hm)

end Character

end Footprint.Text
