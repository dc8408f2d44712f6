import Footprint.Proofs.Path
import Footprint.Proofs.Types.Sized

/-!
# Arrays with several dimensions

The dimensions of an array type stand behind its element type, the outermost
first.  The element type of the array and its length are read off the last
bracket (`element_arrays`).  So the last dimension is taken for the length of
the array, and an element keeps all dimensions but the last.  The size counts
them in the same order, the last one outermost.  Only where all dimensions are
equal does this not show.
-/

namespace Footprint

open Footprint.TypeName

/-! ## The last word of a text -/

namespace Text

theorem breaks_nil : Breaks [] := by
  intro c h
  cases h

variable {cs : List Char}

/-- A text that does not end in a blank ends in a word. -/
theorem exists_lastWord (hne : ¬ Breaks cs) : ∃ pre w, cs = pre ++ w ∧ Breaks pre ∧ IsWord w := by
  induction cs with
  | nil => exact absurd breaks_nil hne
  | cons c cs ih =>
    -- a blank before a word ends what stands before it
    have hstart {w : List Char} (hw : ∀ d ∈ w, isBlank d = false)
        (hword : isBlank c = true → w ≠ []) :
        ∃ pre w', c :: w = pre ++ w' ∧ Breaks pre ∧ IsWord w' := by
      by_cases hc : isBlank c = true
      · refine ⟨[c], w, rfl, fun e he => ?_, hword hc, hw⟩
        cases he
        exact hc
      · exact ⟨[], c :: w, rfl, breaks_nil, by simp,
          List.forall_mem_cons.mpr ⟨by simpa using hc, hw⟩⟩
    cases cs with
    | nil =>
      refine hstart (fun d hd => by cases hd) fun hc => absurd (fun e he => ?_) hne
      cases he
      exact hc
    | cons d cs =>
      obtain ⟨pre, w, hcs, hpre, hw⟩ := ih fun hb => hne fun e he => hb e (by simpa using he)
      cases pre with
      | nil =>
        rw [hcs]
        exact hstart hw.2 fun _ => hw.1
      | cons e pre =>
        refine ⟨c :: e :: pre, w, by rw [hcs]; rfl, fun f hf => hpre f (by simpa using hf), hw⟩

theorem cutAtLast?_append {c : Char} {rest : List Char} (h : c ∉ rest) :
    ∀ cs : List Char, cutAtLast? c (cs ++ c :: rest) = some (cs, rest)
  | [] => by
    have hnone : ∀ {ds : List Char}, c ∉ ds → cutAtLast? c ds = none := by
      intro ds hds
      induction ds with
      | nil => rfl
      | cons d ds ih =>
        rw [List.mem_cons, not_or] at hds
        rw [cutAtLast?, ih hds.2]
        exact if_neg (Ne.symm hds.1)
    rw [List.nil_append, cutAtLast?, hnone h]
    exact if_pos rfl
  | d :: cs => by
    rw [List.cons_append, cutAtLast?, cutAtLast?_append h cs]

/-- Nothing is trimmed from a text that neither starts nor ends with a blank. -/
theorem trim_of_ends (hfirst : wordEnds cs = false) (hlast : ¬ Breaks cs) : trim cs = cs := by
  have hleft : trimLeft cs = cs := by
    cases cs with
    | nil => rfl
    | cons c cs => exact List.dropWhile_cons_of_neg (by simpa [wordEnds] using hfirst)
  rw [trim, hleft, trimRight]
  obtain ⟨c, hc, hblank⟩ : ∃ c, cs.getLast? = some c ∧ isBlank c = false := by
    simpa [Breaks] using hlast
  rw [List.getLast?_eq_head?_reverse] at hc
  cases hrev : cs.reverse with
  | nil => rw [hrev] at hc; cases hc
  | cons d ds =>
    rw [hrev] at hc
    cases hc
    rw [List.dropWhile_cons_of_neg (by simp [hblank]), ← hrev, List.reverse_reverse]

theorem IsWord.not_breaks {w : List Char} (hw : IsWord w) (pre : List Char) :
    ¬ Breaks (pre ++ w) := by
  intro hb
  have hlast : (pre ++ w).getLast? = some (w.getLast hw.1) := by
    rw [List.getLast?_append_of_ne_nil _ hw.1, List.getLast?_eq_some_getLast hw.1]
  exact Bool.noConfusion ((hw.2 _ (List.getLast_mem hw.1)).symm.trans (hb _ hlast))

/-- Words with single blanks between them, of which the last one may be any. -/
theorem intercalate_concat {ws : List (List Char)} (h : ∀ w ∈ ws, IsWord w) :
    ∃ pre, Breaks pre ∧ (pre ≠ [] → wordEnds pre = false) ∧
      ∀ w, [' '].intercalate (ws ++ [w]) = pre ++ w := by
  induction ws with
  | nil => exact ⟨[], breaks_nil, fun h => absurd rfl h, fun w => by simp⟩
  | cons v ws ih =>
    obtain ⟨pre, hpre, _, hjoin⟩ := ih fun w hw => h w (List.mem_cons_of_mem v hw)
    obtain ⟨hv, hblank⟩ := h v List.mem_cons_self
    refine ⟨v ++ [' '] ++ pre, fun c hc => ?_, fun _ => ?_, fun w => ?_⟩
    · cases pre with
      | nil =>
        rw [List.append_nil, List.getLast?_concat] at hc
        cases hc
        rfl
      | cons d pre =>
        rw [List.getLast?_append_of_ne_nil _ (by simp)] at hc
        exact hpre c hc
    · cases v with
      | nil => exact absurd rfl hv
      | cons d v => exact hblank d List.mem_cons_self
    · have hcons : ∃ u us, ws ++ [w] = u :: us := by
        cases ws with
        | nil => exact ⟨_, _, rfl⟩
        | cons u us => exact ⟨_, _, rfl⟩
      obtain ⟨u, us, hus⟩ := hcons
      rw [List.cons_append, hus, List.intercalate_cons_cons, ← hus, hjoin]
      simp

end Text

namespace TypeName

open Text

/-- A text that ends in a word of its own has a normal form that ends in this word. -/
theorem exists_normalize_eq {pre : List Char} (hpre : Breaks pre) :
    ∃ pre', Breaks pre' ∧ (pre' ≠ [] → wordEnds pre' = false) ∧ words pre' = kept (words pre) ∧
      ∀ w, IsWord w → String.ofList w ∉ qualifiers →
        (normalize (String.ofList (pre ++ w))).toList = pre' ++ w := by
  have hwords : ∀ w ∈ kept (words pre), IsWord w := fun w hw =>
    isWord_of_mem_words (List.mem_of_mem_filter hw)
  obtain ⟨pre', hbreaks, hstart, hjoin⟩ := intercalate_concat hwords
  refine ⟨pre', hbreaks, hstart, ?_, fun w hw hkept => ?_⟩
  · have hx : IsWord ['x'] := by
      refine ⟨by simp, fun c hc => ?_⟩
      cases List.mem_singleton.mp hc
      rfl
    have hall : ∀ w ∈ kept (words pre) ++ [['x']], IsWord w := by
      simpa [or_imp, forall_and, hx] using hwords
    have heq := words_intercalate hall
    rw [hjoin, words_append (.inl hbreaks), words_of_isWord hx] at heq
    exact List.append_cancel_right heq
  · rw [toList_normalize, String.toList_ofList, words_append (.inl hpre),
      words_of_isWord hw, ← hjoin]
    simp [kept, hkept]

theorem kept_append (ws ws' : List (List Char)) : kept (ws ++ ws') = kept ws ++ kept ws' :=
  List.filter_append ..

theorem not_mem_qualifiers {w : List Char} (h : '*' ∈ w ∨ '[' ∈ w) :
    String.ofList w ∉ qualifiers := by
  intro hq
  have hclean : ∀ q ∈ qualifiers, '*' ∉ q.toList ∧ '[' ∉ q.toList := by decide
  have hw := hclean _ hq
  rw [String.toList_ofList] at hw
  exact h.elim hw.1 hw.2

/-- The text of a dimension. -/
def bracket (n : Nat) : String := "[" ++ toString n ++ "]"

theorem toList_bracket (n : Nat) : (bracket n).toList = '[' :: ((toString n).toList ++ [']']) := by
  simp [bracket]

theorem not_blank_bracket {n : Nat} {c : Char} (hc : c ∈ (bracket n).toList) :
    isBlank c = false := by
  rw [toList_bracket, List.mem_cons, List.mem_append, List.mem_singleton] at hc
  rcases hc with rfl | hc | rfl
  · rfl
  · exact not_isBlank_of_isDigit (isDigit_of_mem_toString hc)
  · rfl

/-- The element type of an array is what stands before the last bracket. -/
theorem exists_arrayParts {t : String} (ht : ¬ Breaks t.toList) :
    ∃ b, normalize b = normalize t ∧ (normalize t = t → b = t) ∧ ∀ n : Nat,
      normalize (t ++ bracket n) = b ++ bracket n ∧
      arrayParts (b ++ bracket n) = (b, toString n) := by
  obtain ⟨pre, w, hpw, hpre, hw⟩ := exists_lastWord ht
  obtain ⟨pre', hbreaks, hstart, hwords, hnormal⟩ := exists_normalize_eq hpre
  have hofList : t = String.ofList (pre ++ w) := by rw [← hpw, String.ofList_toList]
  refine ⟨String.ofList (pre' ++ w), ?_, fun hself => ?_, fun n => ⟨?_, ?_⟩⟩
  · apply String.toList_injective
    rw [toList_normalize, toList_normalize, hpw, String.toList_ofList, words_append (.inl hbreaks),
      words_append (.inl hpre), hwords, kept_append, kept_append, kept_kept]
  · have hkept := words_normalize t
    rw [hself, hpw, words_append (.inl hpre), words_of_isWord hw] at hkept
    have hmem : w ∈ kept (words pre ++ [w]) :=
      hkept ▸ List.mem_append_right _ (List.mem_singleton_self w)
    apply String.toList_injective
    rw [String.toList_ofList, ← hnormal w hw (by simpa [kept] using (List.mem_filter.mp hmem).2),
      ← hofList, hself]
  · apply String.toList_injective
    have hword : IsWord (w ++ (bracket n).toList) := by
      refine ⟨by simp [hw.1], fun c hc => ?_⟩
      exact (List.mem_append.mp hc).elim (hw.2 c) not_blank_bracket
    have hlast := hnormal _ hword (not_mem_qualifiers (.inr (by simp [toList_bracket])))
    have htext : t ++ bracket n = String.ofList (pre ++ (w ++ (bracket n).toList)) := by
      apply String.toList_injective
      rw [String.toList_append, hpw, String.toList_ofList, List.append_assoc]
    rw [htext, hlast, String.toList_append, String.toList_ofList, List.append_assoc]
  · have hdigits : '[' ∉ (toString n).toList ++ [']'] := by
      intro h
      rcases List.mem_append.mp h with h | h
      · cases isDigit_of_mem_toString h
      · cases List.mem_singleton.mp h
    have hfirst : wordEnds (pre' ++ w) = false := by
      cases pre' with
      | cons c pre' => exact hstart (by simp)
      | nil =>
        cases w with
        | nil => exact absurd rfl hw.1
        | cons c w => exact hw.2 c List.mem_cons_self
    unfold arrayParts
    rw [String.toList_append, String.toList_ofList, toList_bracket, cutAtLast?_append hdigits]
    dsimp only
    rw [trim_of_ends hfirst (hw.not_breaks pre'), List.dropLast_concat, trim_of_not_blank,
      String.ofList_toList]
    exact fun c hc => not_isBlank_of_isDigit (isDigit_of_mem_toString hc)

/-- The spelling of an array with the given dimensions, the outermost first. -/
def arrays (base : String) (dims : List Nat) : String := dims.foldl (fun t n => t ++ bracket n) base

theorem arrays_concat (base : String) (dims : List Nat) (n : Nat) :
    arrays base (dims ++ [n]) = arrays base dims ++ bracket n := by
  simp [arrays]

theorem getLast?_bracket (t : String) (n : Nat) : (t ++ bracket n).toList.getLast? = some ']' := by
  rw [String.toList_append, toList_bracket, ← List.cons_append, ← List.append_assoc,
    List.getLast?_concat]

theorem not_breaks_bracket (t : String) (n : Nat) : ¬ Breaks (t ++ bracket n).toList := by
  intro h
  cases h _ (getLast?_bracket t n)

theorem length_arrays_le (base : String) (dims : List Nat) :
    base.length + dims.length ≤ (arrays base dims).length := by
  induction dims using List.reverseRecOn with
  | nil => simp [arrays]
  | append_singleton dims n ih =>
    have hlength : 1 ≤ (bracket n).length := by
      rw [← String.length_toList, toList_bracket, List.length_cons]
      omega
    rw [arrays_concat, String.length_append, List.length_append, List.length_singleton]
    omega

variable {base : String}

theorem not_breaks_arrays (h : ¬ Breaks base.toList) (dims : List Nat) :
    ¬ Breaks (arrays base dims).toList := by
  cases dims using List.reverseRecOn with
  | nil => exact h
  | append_singleton dims n =>
    rw [arrays_concat]
    exact not_breaks_bracket _ n

theorem normalize_arrays (h : normalize base = base) (hne : ¬ Breaks base.toList)
    (dims : List Nat) : normalize (arrays base dims) = arrays base dims := by
  induction dims using List.reverseRecOn with
  | nil => exact h
  | append_singleton dims n ih =>
    obtain ⟨b, _, hself, hb⟩ := exists_arrayParts (not_breaks_arrays hne dims)
    rw [arrays_concat, (hb n).1, hself ih]

theorem arrayParts_arrays (h : normalize base = base) (hne : ¬ Breaks base.toList) (dims : List Nat)
    (n : Nat) : arrayParts (arrays base (dims ++ [n])) = (arrays base dims, toString n) := by
  obtain ⟨b, _, hself, hb⟩ := exists_arrayParts (not_breaks_arrays hne dims)
  have hparts := (hb n).2
  rw [hself (normalize_arrays h hne dims)] at hparts
  rw [arrays_concat, hparts]

theorem mem_bracket (t : String) (n : Nat) : '[' ∈ (t ++ bracket n).toList := by
  rw [String.toList_append, toList_bracket]
  exact List.mem_append_right _ List.mem_cons_self

theorem endsInBracket_bracket (t : String) (n : Nat) : endsInBracket (t ++ bracket n) = true := by
  rw [endsInBracket, getLast?_bracket, List.contains_iff_mem.mpr (mem_bracket t n)]
  rfl

theorem endsInStar_bracket (t : String) (n : Nat) : endsInStar (t ++ bracket n) = false := by
  rw [endsInStar, getLast?_bracket]
  rfl

theorem arrayLength_toString {n : Nat} (h : n < 10 ^ maxDigits) :
    arrayLength (toString n) = .ok n := by
  rw [arrayLength, if_pos (allDigits_toString n), readDigits_toString h]

end TypeName

namespace TypeTable

variable {T : TypeTable}

/-- The names of the table have no marks of pointers and arrays. -/
def Unmarked (T : TypeTable) : Prop :=
  ∀ n, T.aliases.contains n = true ∨ T.structs.contains n = true ∨ T.enums.contains n = true →
    '*' ∉ n.toList ∧ '[' ∉ n.toList

/-- The text has a mark of pointers or arrays. -/
def Marked (n : String) : Prop := '*' ∈ n.toList ∨ '[' ∈ n.toList

variable {n t b base : String} {dims : List Nat}

theorem Unmarked.alias (hT : T.Unmarked) (hn : Marked n) : T.aliases.get? n = none := by
  by_contra h
  have hfound := hT n (.inl (Option.isSome_iff_ne_none.mpr h))
  exact hn.elim hfound.1 hfound.2

theorem Unmarked.struct (hT : T.Unmarked) (hn : Marked n) : T.structs.get? n = none := by
  by_contra h
  have hfound := hT n (.inr (.inl (Option.isSome_iff_ne_none.mpr h)))
  exact hn.elim hfound.1 hfound.2

theorem Unmarked.isBuiltin (hT : T.Unmarked) (hn : Marked n) : T.isBuiltin n = false := by
  have hbuiltin : ∀ n ∈ builtinTypes, '*' ∉ n.toList ∧ '[' ∉ n.toList := by decide
  rw [TypeTable.isBuiltin, Bool.or_eq_false_iff]
  constructor
  · refine Bool.eq_false_iff.mpr fun h => ?_
    have hfound := hbuiltin n (List.contains_iff_mem.mp h)
    exact hn.elim hfound.1 hfound.2
  · refine Bool.eq_false_iff.mpr fun h => ?_
    have hfound := hT n (.inr (.inr h))
    exact hn.elim hfound.1 hfound.2

theorem Unmarked.decode (hT : T.Unmarked) (hn : Marked (normalize t)) :
    T.decode t = normalize t := by
  rw [TypeTable.decode, hT.alias hn]
  rfl

/-- The element type and the length of an array are read off its last bracket. -/
theorem Unmarked.element (hT : T.Unmarked) {n : Nat}
    (ht : normalize t = b ++ bracket n) (hparts : arrayParts (b ++ bracket n) = (b, toString n))
    (hn : n < 10 ^ Text.maxDigits) : T.element t = .ok (b, n) := by
  have hmarked : Marked (normalize t) := by
    rw [ht]
    exact .inr (mem_bracket b n)
  have harray : T.isArray (normalize t) = true := by
    rw [isArray, hT.decode (by rwa [normalize_normalize]), normalize_normalize, ht,
      endsInBracket_bracket]
  unfold TypeTable.element
  dsimp only
  rw [hT.decode hmarked, harray, if_pos rfl, ht, hparts, arrayLength_toString hn]
  rfl

theorem sizeWithin_congr {t' : String} (h : normalize t = normalize t') :
    ∀ k, sizeWithin k t = sizeWithin k t'
  | 0 => rfl
  | k + 1 => by rw [sizeWithin, sizeWithin, h]

/-- An array counts one for itself, and its element size for each of its elements. -/
theorem Unmarked.sizeWithin (hT : T.Unmarked) {n : Nat}
    (ht : normalize t = b ++ bracket n) (hparts : arrayParts (b ++ bracket n) = (b, toString n))
    (hn : n < 10 ^ Text.maxDigits) (k : Nat) :
    sizeWithin (k + 1) t T = (do let s ← sizeWithin k b; return 1 + s * n) T := by
  have hget : (get : TypeM TypeTable) T = .ok T T := rfl
  rw [TypeTable.sizeWithin]
  dsimp only
  rw [bind_of_ok hget, ht, endsInStar_bracket, hT.isBuiltin (.inr (mem_bracket b n)),
    endsInBracket_bracket, hparts, arrayLength_toString hn]
  rfl

/-! ## Larger bounds -/

/-- What the one step finds, the other finds too. -/
def Covers {α : Type} (x y : TypeM α) : Prop := ∀ T a T', y T = .ok a T' → x T = .ok a T'

theorem Covers.refl {α : Type} (x : TypeM α) : Covers x x := fun _ _ _ h => h

theorem Covers.bind {α β : Type} {x y : TypeM α} {f g : α → TypeM β} (h : Covers x y)
    (hf : ∀ a, Covers (f a) (g a)) : Covers (x >>= f) (y >>= g) := by
  intro T b T' hy
  obtain ⟨a, T₁, hy, hg⟩ := exists_of_bind hy
  rw [bind_of_ok (h T a T₁ hy)]
  exact hf a T₁ b T' hg

theorem Covers.addMembers {x y : String → TypeM Nat} (h : ∀ t, Covers (x t) (y t)) (name : String) :
    ∀ ts, Covers (addMembers x name ts) (addMembers y name ts)
  | [] => .refl _
  | t :: ts => .bind (h t) fun _ => .bind (.refl _) fun _ => Covers.addMembers h name ts

/-- A larger bound finds the same sizes. -/
theorem sizeWithin_covers : ∀ (k : Nat) (t : String), Covers (sizeWithin (k + 1) t) (sizeWithin k t)
  | 0, _ => fun _ _ _ h => by cases h
  | k + 1, t => by
    rw [sizeWithin, sizeWithin]
    refine .bind (.refl _) fun T => ?_
    split
    · exact .refl _
    split
    · exact .bind (.refl _) fun _ => .bind (sizeWithin_covers k _) fun _ => .refl _
    split
    · exact sizeWithin_covers k _
    split
    · exact .refl _
    split
    · exact .bind (sizeWithin_covers k _) fun _ => .refl _
    split
    · exact .refl _
    refine .bind (.refl _) fun _ => ?_
    split
    · exact .refl _
    · exact .bind (.refl _) fun _ => .bind (.addMembers (sizeWithin_covers k) _ _) fun _ => .refl _

theorem sizeWithin_covers_add (k : Nat) (t : String) :
    ∀ j, Covers (sizeWithin (k + j) t) (sizeWithin k t)
  | 0 => .refl _
  | j + 1 => fun T a T' h =>
    sizeWithin_covers (k + j) t T a T' (sizeWithin_covers_add k t j T a T' h)

/-- The size of an array with the given dimensions, if its element type has the size `s`. -/
def arraySize (s : Nat) (dims : List Nat) : Nat := dims.foldl (fun s n => 1 + s * n) s

theorem arraySize_concat (s : Nat) (dims : List Nat) (n : Nat) :
    arraySize s (dims ++ [n]) = 1 + arraySize s dims * n :=
  List.foldl_concat ..

/-- The size of an array is counted from the size of what its brackets follow. -/
theorem Unmarked.sizeWithin_arrays (hT : T.Unmarked) (hne : ¬ Text.Breaks base.toList)
    (hdims : ∀ n ∈ dims, n < 10 ^ Text.maxDigits) (k : Nat) :
    TypeTable.sizeWithin (k + dims.length) (arrays base dims) T =
      (do let s ← TypeTable.sizeWithin k base; return arraySize s dims) T := by
  induction dims using List.reverseRecOn with
  | nil => exact (congrFun (bind_pure _) T).symm
  | append_singleton dims n ih =>
    obtain ⟨b, hb, _, hparts⟩ := exists_arrayParts (not_breaks_arrays hne dims)
    have hshort := hdims n (List.mem_append_right _ (List.mem_singleton_self n))
    have ih := ih fun d hd => hdims d (List.mem_append_left _ hd)
    rw [arrays_concat, List.length_append, List.length_singleton, ← Nat.add_assoc,
      hT.sizeWithin (hparts n).1 (hparts n).2 hshort, sizeWithin_congr hb]
    simp only [arraySize_concat]
    cases hs : TypeTable.sizeWithin k base T with
    | ok s T' =>
      rw [bind_of_ok hs] at ih ⊢
      exact bind_of_ok ih
    | error e T' =>
      rw [bind_of_error hs] at ih ⊢
      exact bind_of_error ih

theorem Unmarked.size_arrays (hT : T.Unmarked) (hbase : normalize base = base)
    (hne : ¬ Text.Breaks base.toList) (hdims : ∀ n ∈ dims, n < 10 ^ Text.maxDigits) {s : Nat}
    {T' : TypeTable} (h : size base T = .ok s T') :
    size (arrays base dims) T = .ok (arraySize s dims) T' := by
  have hfound := (hT.sizeWithin_arrays hne hdims (T.sizeBound base)).trans
    (bind_of_ok (x := TypeTable.sizeWithin (T.sizeBound base) base) h)
  have hbound : T.sizeBound (arrays base dims) = T.sizeBound base + dims.length +
      ((arrays base dims).length - base.length - dims.length) := by
    have hlength := length_arrays_le base dims
    simp only [sizeBound, normalize_arrays hbase hne, hbase]
    omega
  show TypeTable.sizeWithin _ _ _ = _
  rw [hbound]
  exact sizeWithin_covers_add _ _ _ _ _ _ hfound

end TypeTable

/-! ## Elements -/

namespace Memory

variable {T : TypeTable}

/-- The block at the address has a variable of the name and type. -/
structure HoldsAt (a : Nat) (name type : String) (m : Memory) : Prop where
  block : ∃ b, m.block? a = some b ∧ b.var < m.vars.size ∧ (m.varOf b.var).name = name ∧
    (m.varOf b.var).type = type

theorem spreads_holdsAt (a : Nat) (name type : String) :
    Spreads (fun _ => True) (fun _ => True) (HoldsAt a name type) fun _ => HoldsAt a name type where
  own _ := trivial
  element _ _ := trivial
  member _ := trivial
  part {m id s c} hm _ _ := by
    obtain ⟨b, hb, hlt, hn, ht⟩ := hm.block
    refine ⟨b, hb, by simpa [setVar] using hlt, ?_⟩
    rw [varOf_setVar]
    split
    · exact ⟨hn, ht⟩
    · exact ⟨hn, ht⟩
  block {m name' parent v} hm _ _ := by
    obtain ⟨b, hb, hlt, hn, ht⟩ := hm.block
    refine ⟨b, block?_withPart_of_some hb name' parent v, ?_, ?_⟩
    · simpa [withPart, withBlock] using Nat.lt_succ_of_lt hlt
    · rw [varOf_withPart, if_neg (Nat.ne_of_lt hlt)]
      exact ⟨hn, ht⟩
  fault hm _ := hm

/-- An element that is not there is laid out with the element type of its array. -/
theorem element_holdsAt {m : Memory} (hm : Linked none m) {a : Nat} {b : Block}
    (hb : m.block? a = some b) (hkind : (m.varOf b.var).kind = .array) {base : String} {n : Nat}
    (helement : T.element (m.varOf b.var).type = .ok (base, n)) {name : String} {s : Slot}
    (hpart : (m.varOf b.var).parts.get? s = none) (habsent : m.address? (name ++ s.suffix) = none) :
    Ends (element T a name s) m (fun _ => HoldsAt m.next (name ++ s.suffix) (T.decode base))
      fun _ => HoldsAt m.next (name ++ s.suffix) (T.decode base) := by
  have hspreads := spreads_holdsAt m.next (name ++ s.suffix) (T.decode base)
  refine Ends.bind_ok (variableAt_ok hm hb) ?_
  dsimp only
  rw [if_neg (not_not_intro hkind), hpart]
  refine Ends.bind_ok (orFault_of_ok helement m) (Ends.bind (Ends.get ?_))
  rw [habsent]
  refine Ends.bind (Ends.get (Ends.bind (Ends.modify (Ends.bind ?_))))
  refine Ends.mono ?_ (fun _ _ hr => Ends.bind (Ends.get (Ends.pure hr))) fun _ _ hr => hr
  -- the block of the element comes first
  obtain ⟨bound, hbound⟩ : ∃ bound, layoutBound T (m.notePart b.var s m.next) base = bound + 1 :=
    ⟨_, rfl⟩
  have hblock : HoldsAt m.next (name ++ s.suffix) (T.decode base)
      ((m.notePart b.var s m.next).withPart (name ++ s.suffix) a
        (partVariable T (name ++ s.suffix) (T.decode base) m.next)) := by
    refine ⟨_, block?_withPart_next (m := m.notePart b.var s m.next) hm.next _ a _, ?_, ?_⟩
    · simp [withPart, withBlock]
    · rw [varOf_withPart, if_pos rfl]
      exact ⟨rfl, rfl⟩
  refine Ends.bind (Ends.get ?_)
  show Ends (allocateWithin T (layoutBound T (m.notePart b.var s m.next) base) _ _ _ _) _ _ _
  rw [hbound]
  refine Ends.bind (Ends.get (Ends.bind_ok rfl (Ends.bind (Ends.modify (Ends.bind ?_)))))
  exact (hspreads.allocateParts (D := fun _ => True) (fun n t p hm hn _ =>
    hspreads.allocateWithin bound n t p hm hn settled_of_keeps) trivial _ _ trivial hblock
      fun _ _ => trivial).mono (fun _ _ hr => Ends.pure hr) fun _ _ hr => hr

end Memory

/-! ## The order of the dimensions -/

namespace TypeName

open Text

/-- A normal form that is not empty does not end in a blank. -/
theorem not_breaks_of_normal {t : String} (h : normalize t = t) (hne : t ≠ "") :
    ¬ Breaks t.toList := by
  have hwords : ∀ w ∈ kept (words t.toList), IsWord w := fun w hw =>
    isWord_of_mem_words (List.mem_of_mem_filter hw)
  have hjoin := toList_normalize t
  rw [h] at hjoin
  rw [hjoin]
  rcases List.eq_nil_or_concat (kept (words t.toList)) with hnil | ⟨ws, w, hws⟩
  · rw [hnil] at hjoin
    exact absurd (String.toList_injective hjoin) hne
  · rw [hws, List.concat_eq_append] at hwords ⊢
    obtain ⟨pre, _, _, hconcat⟩ := intercalate_concat fun v hv =>
      hwords v (List.mem_append_left _ hv)
    rw [hconcat]
    exact (hwords w (List.mem_append_right _ (List.mem_singleton_self w))).not_breaks pre

/-- The dimensions of a spelling are given by it. -/
theorem arrays_inj {base : String} (h : normalize base = base) (hne : ¬ Breaks base.toList)
    {dims dims' : List Nat} (heq : arrays base dims = arrays base dims') : dims = dims' := by
  have hlonger (dims : List Nat) (n : Nat) : arrays base (dims ++ [n]) ≠ arrays base [] := by
    intro he
    have hle := length_arrays_le base (dims ++ [n])
    rw [he, List.length_append, List.length_singleton] at hle
    exact absurd hle (by simp [arrays])
  induction dims using List.reverseRecOn generalizing dims' with
  | nil =>
    rcases List.eq_nil_or_concat dims' with rfl | ⟨dims', n, rfl⟩
    · rfl
    · rw [List.concat_eq_append] at heq
      exact absurd heq.symm (hlonger dims' n)
  | append_singleton dims n ih =>
    rcases List.eq_nil_or_concat dims' with rfl | ⟨dims', n', rfl⟩
    · exact absurd heq (hlonger dims n)
    · rw [List.concat_eq_append] at heq ⊢
      have hparts := arrayParts_arrays h hne dims n
      rw [heq, arrayParts_arrays h hne dims' n', Prod.mk.injEq] at hparts
      rw [ih hparts.1.symm, toString_inj hparts.2]

end TypeName

/-- A list is the same one place further on if it has one value. -/
theorem cons_eq_concat_iff {first last : Nat} {middle : List Nat} :
    first :: middle = middle ++ [last] ↔ ∀ n ∈ first :: middle, n = last := by
  induction middle generalizing first with
  | nil => simp
  | cons d middle ih =>
    rw [List.cons_append, List.cons.injEq, ih,
      List.forall_mem_cons (a := first)]
    constructor
    · rintro ⟨rfl, h⟩
      exact ⟨h first List.mem_cons_self, h⟩
    · rintro ⟨rfl, h⟩
      exact ⟨(h d List.mem_cons_self).symm, h⟩

/-- The last dimension of an array is its length, and its elements keep the other ones.  So it is
read as the array whose dimensions stand in the other order, unless they are all equal. -/
theorem TypeTable.element_arrays {T : TypeTable} (hT : T.Unmarked) {base : String}
    (hbase : TypeName.normalize base = base) (hne : base ≠ "") {first last : Nat}
    {middle : List Nat} (hdims : ∀ n ∈ first :: middle ++ [last], n < 10 ^ Text.maxDigits) :
    T.element (TypeName.arrays base (first :: middle ++ [last])) =
      .ok (TypeName.arrays base (first :: middle), last) ∧
    (T.element (TypeName.arrays base (first :: middle ++ [last])) =
      .ok (TypeName.arrays base (middle ++ [last]), first) ↔ ∀ n ∈ first :: middle, n = last) ∧
    (∀ s T', size base T = .ok s T' →
      size (TypeName.arrays base (first :: middle ++ [last])) T =
        .ok (arraySize s (first :: middle ++ [last])) T') ∧
    ∀ m : Memory, Memory.Linked none m → ∀ a b, m.block? a = some b →
      (m.varOf b.var).kind = .array →
      (m.varOf b.var).type = TypeName.arrays base (first :: middle ++ [last]) →
      ∀ name s, (m.varOf b.var).parts.get? s = none → m.address? (name ++ s.suffix) = none →
        Ends (Memory.element T a name s) m
          (fun _ =>
            Memory.HoldsAt m.next (name ++ s.suffix) (TypeName.arrays base (first :: middle)))
          fun _ => Memory.HoldsAt m.next (name ++ s.suffix)
            (TypeName.arrays base (first :: middle)) := by
  have hbreaks := TypeName.not_breaks_of_normal hbase hne
  have hnormal := TypeName.normalize_arrays hbase hbreaks (first :: middle ++ [last])
  have hparts := TypeName.arrayParts_arrays hbase hbreaks (first :: middle) last
  rw [TypeName.arrays_concat] at hnormal hparts
  have hlast := hdims last (List.mem_append_right _ (List.mem_singleton_self last))
  have helement : T.element (TypeName.arrays base (first :: middle ++ [last])) =
      .ok (TypeName.arrays base (first :: middle), last) := by
    rw [TypeName.arrays_concat]
    exact hT.element hnormal hparts hlast
  refine ⟨helement, ?_, fun s T' => hT.size_arrays hbase hbreaks hdims,
    fun m hm a b hb hkind htype name s hpart habsent => ?_⟩
  · rw [helement, Except.ok.injEq, Prod.mk.injEq, ← cons_eq_concat_iff]
    constructor
    · exact fun h => TypeName.arrays_inj hbase hbreaks h.1
    · intro h
      exact ⟨congrArg (TypeName.arrays base) h,
        (cons_eq_concat_iff.mp h first List.mem_cons_self).symm⟩
  · have hmarked : Marked (TypeName.arrays base (first :: middle)) := by
      rcases List.eq_nil_or_concat (first :: middle) with hnil | ⟨dims, n, hdims⟩
      · cases hnil
      · rw [hdims, List.concat_eq_append, TypeName.arrays_concat]
        exact .inr (TypeName.mem_bracket _ n)
    have hdecode : T.decode (TypeName.arrays base (first :: middle)) =
        TypeName.arrays base (first :: middle) := by
      have hself := TypeName.normalize_arrays hbase hbreaks (first :: middle)
      rw [hT.decode (by rwa [hself]), hself]
    rw [← hdecode]
    exact Memory.element_holdsAt hm hb hkind (htype ▸ helement) hpart habsent

theorem Text.lt_maxDigits {n : Nat} (h : n < 10) : n < 10 ^ Text.maxDigits :=
  Nat.lt_of_lt_of_le h (Nat.pow_le_pow_right (n := 10) (i := 1) (by decide) (by decide))

theorem TypeTable.unmarked_empty : ({} : TypeTable).Unmarked := by
  rintro n (h | h | h)
  · cases h
  · cases h
  · cases h

/-- A matrix of two rows with three elements each is taken for three rows of two. -/
theorem TypeTable.element_arrays_matrix :
    ({} : TypeTable).element "int[2][3]" = .ok ("int[2]", 3) ∧
    value? (size "int[2][3]" {}) = some 10 := by
  have h := @element_arrays {} unmarked_empty "int" (by decide) (by decide) 2 3 []
    (by simp [Text.lt_maxDigits])
  obtain ⟨T', hint⟩ := exists_of_value? (a := 1) (r := size "int" {}) (by decide +kernel)
  exact ⟨h.1, congrArg value? (h.2.2.1 1 T' hint)⟩

/-- The elements of the matrix are not its rows, and it is larger than they are. -/
theorem TypeTable.rows_lost :
    (({} : TypeTable).element "int[2][3]").toOption ≠ some ("int[3]", 2) ∧
    value? (size "int[2][3]" {}) ≠ some (1 + 2 * (1 + 3 * 1)) := by
  decide +kernel

end Footprint
