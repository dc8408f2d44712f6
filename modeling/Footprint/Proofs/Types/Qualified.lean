import Footprint.Proofs.Types.Dimensions

/-!
# Qualifiers in type spellings

A qualifier before the base type is a word of its own and is left out of the
normal form.  One behind a star is written against it, as in `int *const`, and
stays.  What a type is depends on how its normal form ends, so a qualifier
behind the last star hides the star, and the ones behind other stars change
nothing (`qualified_alike_iff`).
-/

namespace Footprint

open Footprint.TypeName Memory

namespace TypeName

open Text

/-- A qualifier of types in C. -/
inductive Qualifier where
  | const
  | volatile
deriving Repr, DecidableEq

/-- The word of a qualifier. -/
def Qualifier.word : Qualifier → String
  | .const => "const"
  | .volatile => "volatile"

/-- Qualifiers before a type. -/
def before (qs : List Qualifier) : String := String.join (qs.map fun q => q.word ++ " ")

/-- Qualifiers that follow another word. -/
def after (qs : List Qualifier) : String := String.join (qs.map fun q => " " ++ q.word)

/-- Qualifiers behind a star.  The first one is written against it. -/
def behindStar : List Qualifier → String
  | [] => "*"
  | q :: qs => "*" ++ q.word ++ after qs

/-- Stars with qualifiers, from the inside out.  After a qualifier a star stands apart. -/
def starsText : List (List Qualifier) → String
  | [] => ""
  | [qs] => behindStar qs
  | qs :: rest => behindStar qs ++ (if qs = [] then "" else " ") ++ starsText rest

/-- A type with qualifiers: those of its base type, the words of the base type, the qualifiers
behind each star from the inside out, and the dimensions. -/
structure Qualified where
  front : List Qualifier
  base : String
  stars : List (List Qualifier)
  dims : List Nat

/-- The spelling of a type with qualifiers. -/
def Qualified.spelling (q : Qualified) : String :=
  arrays (before q.front ++ (q.base ++ (if q.stars = [] then "" else " ") ++ starsText q.stars))
    q.dims

/-- The type without its qualifiers. -/
def Qualified.plain (q : Qualified) : Qualified :=
  { q with front := [], stars := q.stars.map fun _ => [] }

/-- The last star has no qualifier behind it. -/
def Qualified.LastPlain (q : Qualified) : Prop := ∀ qs ∈ q.stars.getLast?, qs = []

instance (q : Qualified) : Decidable q.LastPlain := inferInstanceAs (Decidable (∀ _ ∈ _, _))

example : Qualified.spelling ⟨[.const], "int", [[.const], []], []⟩ = "const int *const *" := by
  decide

/-! ## Normal forms -/

theorem arrays_append (s t : String) (dims : List Nat) :
    arrays (s ++ t) dims = s ++ arrays t dims := by
  induction dims using List.reverseRecOn with
  | nil => rfl
  | append_singleton dims n ih => rw [arrays_concat, arrays_concat, ih, String.append_assoc]

theorem Qualifier.isWord (q : Qualifier) : IsWord q.word.toList := by
  cases q <;> simp [IsWord, word, isBlank]

theorem Qualifier.kept (q : Qualifier) : kept [q.word.toList] = [] := by
  cases q <;> decide

/-- Qualifiers before a type are left out. -/
theorem normalize_before (qs : List Qualifier) (t : String) :
    normalize (before qs ++ t) = normalize t := by
  induction qs with
  | nil => simp [before]
  | cons q qs ih =>
    rw [← ih]
    apply String.toList_injective
    have htext : (before (q :: qs) ++ t).toList =
        q.word.toList ++ ([' '] ++ (before qs ++ t).toList) := by
      simp [before]
    rw [toList_normalize, toList_normalize, htext, words_append (.inr rfl),
      words_of_isWord q.isWord, kept_append, q.kept]
    rfl

/-- Qualifiers that follow another word are left out. -/
theorem normalize_after (qs : List Qualifier) (t : String) :
    normalize (t ++ after qs) = normalize t := by
  induction qs generalizing t with
  | nil => simp [after]
  | cons q qs ih =>
    have htext : t ++ after (q :: qs) = (t ++ " " ++ q.word) ++ after qs := by
      simp [after, String.append_assoc]
    rw [htext, ih]
    apply String.toList_injective
    rw [toList_normalize, toList_normalize, String.toList_append, String.toList_append,
      List.append_assoc, words_append (.inr rfl)]
    show [' '].intercalate (kept (_ ++ words q.word.toList)) = _
    rw [words_of_isWord q.isWord, kept_append, q.kept, List.append_nil]

variable {pre : List Char} {t : String}

/-- What stands behind a star without a blank stands there in the normal form too. -/
theorem exists_normalize_star {w : List Char} (hw : ∀ c ∈ w, isBlank c = false) :
    ∃ pre', (normalize (String.ofList (pre ++ '*' :: w))).toList = pre' ++ '*' :: w := by
  have hne : ¬ Breaks (pre ++ ['*']) := IsWord.not_breaks ⟨by simp, by simp [isBlank]⟩ pre
  obtain ⟨before, word, hcut, hbefore, hword⟩ := exists_lastWord hne
  obtain ⟨before', _, _, _, hnormal⟩ := exists_normalize_eq hbefore
  -- the star is the last character of its word
  obtain ⟨start, rfl⟩ : ∃ start, word = start ++ ['*'] := by
    obtain ⟨start, c, hstart⟩ := (List.eq_nil_or_concat word).resolve_left hword.1
    rw [List.concat_eq_append] at hstart
    rw [hstart, ← List.append_assoc] at hcut
    obtain ⟨_, hc⟩ := List.append_inj' hcut rfl
    exact ⟨start, by rw [hstart, ← hc]⟩
  refine ⟨before' ++ start, ?_⟩
  have htext : pre ++ '*' :: w = before ++ (start ++ '*' :: w) := by
    have hcut := congrArg (· ++ w) hcut
    simpa using hcut
  have hfull : IsWord (start ++ '*' :: w) := by
    refine ⟨by simp, fun c hc => ?_⟩
    rw [← List.singleton_append, ← List.append_assoc] at hc
    exact (List.mem_append.mp hc).elim (hword.2 c) (hw c)
  rw [htext, hnormal _ hfull (not_mem_qualifiers (.inl (by simp))), List.append_assoc]

/-- The last star and what is behind it end the text of some stars. -/
theorem exists_starsText_concat (init : List (List Qualifier)) :
    ∃ pre, ∀ qs, starsText (init ++ [qs]) = pre ++ behindStar qs := by
  induction init with
  | nil => exact ⟨"", fun qs => by simp [starsText]⟩
  | cons qs₀ init ih =>
    obtain ⟨pre, hpre⟩ := ih
    refine ⟨behindStar qs₀ ++ (if qs₀ = [] then "" else " ") ++ pre, fun qs => ?_⟩
    rw [String.append_assoc, ← hpre]
    cases init <;> rfl

/-- A type with stars ends in its last star, what is behind it, and its dimensions. -/
theorem Qualified.exists_spelling (q : Qualified) {qs : List Qualifier}
    (hlast : q.stars.getLast? = some qs) :
    ∃ pre pre', q.spelling = arrays (pre ++ behindStar qs) q.dims ∧
      q.plain.spelling = arrays (pre' ++ "*") q.dims := by
  obtain ⟨init, hinit⟩ := List.getLast?_eq_some_iff.mp hlast
  obtain ⟨pre, hpre⟩ := exists_starsText_concat init
  obtain ⟨pre', hpre'⟩ := exists_starsText_concat (init.map fun _ => [])
  have hstars : starsText (q.stars.map fun _ => []) = pre' ++ "*" := by
    rw [hinit, List.map_append]
    exact hpre' []
  refine ⟨before q.front ++ (q.base ++ (if q.stars = [] then "" else " ") ++ pre),
    before [] ++ (q.base ++ (if q.plain.stars = [] then "" else " ") ++ pre'), ?_, ?_⟩
  · rw [spelling, hinit, hpre]
    simp only [String.append_assoc]
  · rw [spelling]
    show arrays (_ ++ (_ ++ starsText (q.stars.map fun _ => []))) _ = _
    rw [hstars]
    simp only [String.append_assoc]
    rfl

theorem endsInStar_normalize_star (pre : String) : endsInStar (normalize (pre ++ "*")) = true := by
  obtain ⟨pre', hpre'⟩ := @exists_normalize_star pre.toList [] (by simp)
  have htext : pre ++ "*" = String.ofList (pre.toList ++ ['*']) :=
    String.toList_injective (by simp)
  rw [endsInStar, htext, hpre']
  simp

theorem not_breaks_star (pre : String) : ¬ Breaks (pre ++ "*").toList := by
  rw [String.toList_append]
  exact IsWord.not_breaks ⟨by simp, by simp [isBlank]⟩ _

/-- A qualifier behind the last star ends the normal form, and the star is in it. -/
theorem exists_normalize_behindStar (pre : String) (q : Qualifier) (qs : List Qualifier) :
    ∃ pre', (normalize (pre ++ behindStar (q :: qs))).toList = pre' ++ '*' :: q.word.toList := by
  have htext : pre ++ behindStar (q :: qs) =
      String.ofList (pre.toList ++ '*' :: q.word.toList) ++ after qs := by
    rw [behindStar, ← String.append_assoc]
    congr 1
    exact String.toList_injective (by simp)
  rw [htext, normalize_after]
  exact exists_normalize_star q.isWord.2

theorem not_breaks_behindStar (pre : String) (q : Qualifier) (qs : List Qualifier) :
    ¬ Breaks (pre ++ behindStar (q :: qs)).toList := by
  obtain ⟨pre', q', hend⟩ : ∃ pre' q', pre ++ behindStar (q :: qs) = pre' ++ Qualifier.word q' := by
    rcases List.eq_nil_or_concat qs with rfl | ⟨qs, q', rfl⟩
    · exact ⟨pre ++ "*", q, by simp [behindStar, after, String.append_assoc]⟩
    · exact ⟨pre ++ "*" ++ q.word ++ after qs ++ " ", q',
        by simp [behindStar, after, String.append_assoc]⟩
  rw [hend, String.toList_append]
  exact q'.isWord.not_breaks _

/-- What ends in a qualifier ends in no mark. -/
theorem ends_of_qualifier {q : Qualifier} (h : t.toList = pre ++ '*' :: q.word.toList) :
    endsInStar t = false ∧ endsInBracket t = false ∧ inParens t = false := by
  have hlast : t.toList.getLast? = q.word.toList.getLast? := by
    rw [h, ← List.singleton_append, ← List.append_assoc,
      List.getLast?_append_of_ne_nil _ q.isWord.1]
  unfold endsInStar endsInBracket inParens
  rw [hlast]
  cases q <;> simp [Qualifier.word]

/-- Every dimension is there in the normal form. -/
theorem length_dims_le (h : ¬ Breaks t.toList) (dims : List Nat) :
    dims.length ≤ (normalize (arrays t dims)).length := by
  induction dims using List.reverseRecOn with
  | nil => exact Nat.zero_le _
  | append_singleton dims n ih =>
    obtain ⟨b, hb, _, hparts⟩ := exists_arrayParts (not_breaks_arrays h dims)
    have hle := length_normalize_le b
    rw [arrays_concat, (hparts n).1, List.length_append, String.length_append]
    rw [hb] at hle
    exact Nat.add_le_add (Nat.le_trans ih hle)
      (by rw [← String.length_toList, toList_bracket, List.length_cons]; simp)

end TypeName

/-! ## Answers -/

namespace TypeTable

variable {T : TypeTable} {t u : String} {dims : List Nat}

/-- The table and the memory treat two spellings alike. -/
structure Alike (T : TypeTable) (t u : String) : Prop where
  kind : T.kindOf t = T.kindOf u
  pointer : T.isPointer t = T.isPointer u
  basic : T.isBasic t = T.isBasic u
  size : size t T = size u T
  layout : ∀ (m : Memory), Linked none m → ∀ name parent,
    (value? (allocate T name t parent none m)).isSome =
      (value? (allocate T name u parent none m)).isSome

theorem allocateWithin_congr (h : T.decode t = T.decode u) (name : String) (parent : Nat)
    (given : Option VarId) : ∀ k, allocateWithin T k name t parent given =
      allocateWithin T k name u parent given
  | 0 => rfl
  | k + 1 => by rw [allocateWithin, allocateWithin, h]

/-- Only the normal form of a spelling matters. -/
theorem Alike.of_normalize (h : normalize t = normalize u) : Alike T t u := by
  have hdecode : T.decode t = T.decode u := by rw [decode, decode, h]
  refine ⟨by rw [kindOf, kindOf, hdecode], by rw [isPointer, isPointer, hdecode],
    by rw [isBasic, isBasic, h], ?_, fun m _ name parent => ?_⟩
  · show sizeWithin (T.sizeBound t) t T = sizeWithin (T.sizeBound u) u T
    rw [sizeWithin_congr h, sizeBound, sizeBound, h]
  · have hbound : layoutBound T m t = layoutBound T m u := by
      rw [layoutBound, layoutBound, h]
    have hsame : allocate T name t parent none m = allocate T name u parent none m := by
      refine (bind_of_ok rfl).trans (Eq.trans ?_ (bind_of_ok rfl).symm)
      rw [hbound, allocateWithin_congr hdecode]
    rw [hsame]

theorem sizeWithin_star (h : endsInStar (normalize t) = true) (k : Nat) :
    sizeWithin (k + 1) t T = .ok 1 T := by
  rw [sizeWithin]
  refine (bind_of_ok rfl).trans ?_
  rw [h]
  rfl

/-- A type with a star in it that ends otherwise has no size. -/
theorem Unmarked.sizeWithin_hidden (hT : T.Unmarked) {pre : List Char} {q : Qualifier}
    (h : (normalize t).toList = pre ++ '*' :: q.word.toList) (k : Nat) :
    ∃ e, TypeTable.sizeWithin (k + 1) t T = .error e T := by
  obtain ⟨hstar, hbracket, hparens⟩ := ends_of_qualifier h
  have hmarked : '*' ∈ (normalize t).toList := by simp [h]
  have hclean : isClean (normalize t) = false := by simp [isClean, h]
  refine ⟨.notClean (normalize t), ?_⟩
  rw [TypeTable.sizeWithin]
  refine (bind_of_ok rfl).trans ?_
  rw [hstar, hT.isBuiltin (.inl hmarked), hbracket, hparens, hclean]
  rfl

/-- What the table says about a type with a bracket at the end. -/
theorem Unmarked.bracketed (hT : T.Unmarked) {b : String} {n : Nat}
    (h : normalize t = b ++ bracket n) :
    T.decode t = b ++ bracket n ∧ T.isBasic t = false ∧ T.kindOf t = .array ∧
      T.isPointer t = false ∧ T.isArray t = true := by
  have hmarked : Marked (b ++ bracket n) := .inr (mem_bracket b n)
  have hdecode : T.decode t = b ++ bracket n := by
    rw [hT.decode (by rwa [h]), h]
  have hstar := endsInStar_bracket b n
  have hend := endsInBracket_bracket b n
  refine ⟨hdecode, ?_, ?_, by rw [isPointer, hdecode, hstar],
    by rw [isArray, hdecode, hend]⟩
  · rw [isBasic, h, hT.isBuiltin hmarked, hstar]
    rfl
  · rw [kindOf, hdecode, hstar, hend]
    rfl

/-- The size of an array from the size of what its brackets follow, whatever that is. -/
theorem Unmarked.exists_size_arrays (hT : T.Unmarked) (hne : ¬ Text.Breaks t.toList)
    (hdims : ∀ n ∈ dims, n < 10 ^ Text.maxDigits) :
    ∃ k, TypeTable.size (arrays t dims) T =
      (do let s ← TypeTable.sizeWithin (k + 1) t; return arraySize s dims) T := by
  have hle := length_dims_le hne dims
  have hbound : T.sizeBound (arrays t dims) =
      (T.sizeBound (arrays t dims) - 1 - dims.length) + 1 + dims.length := by
    simp only [sizeBound]
    omega
  refine ⟨T.sizeBound (arrays t dims) - 1 - dims.length, ?_⟩
  rw [← hT.sizeWithin_arrays hne hdims, ← hbound]
  rfl

end TypeTable

namespace Memory

variable {T : TypeTable} {t : String} {dims : List Nat} {A B : Prop} {m : Memory}
variable (hT : T.Unmarked) (hne : ¬ Text.Breaks t.toList)
variable (hbase : ∀ k name u parent m, normalize u = normalize t →
  Ends (allocateWithin T (k + 1) name u parent none) m (fun _ _ => A) fun _ _ => B)
variable (hdims : ∀ n ∈ dims, n < 10 ^ Text.maxDigits)

include hT hne hbase hdims

/-- A layout of an array ends as the layouts of what its brackets follow do.  If it is to stop, no
longer name may be there already, or else the elements are not laid out. -/
theorem ends_allocateWithin_arrays (k : Nat) {name u : String} {parent : Nat}
    (hu : normalize u = normalize (arrays t dims))
    (hnext : m.next = m.blocks.size) (hpos : 0 < m.next)
    (hnames : A ∨ ∀ n c, m.address? n = some c → n.length ≤ name.length) :
    Ends (allocateWithin T (k + 1 + dims.length) name u parent none) m (fun _ _ => A)
      fun _ _ => B := by
  induction dims using List.reverseRecOn generalizing name u parent m with
  | nil => exact hbase k name u parent m hu
  | append_singleton dims n ih =>
    obtain ⟨b, hb, _, hparts⟩ := exists_arrayParts (not_breaks_arrays hne dims)
    rw [arrays_concat, (hparts n).1] at hu
    have hself : normalize (b ++ bracket n) = b ++ bracket n := by
      rw [← hu, normalize_normalize]
    obtain ⟨_, hbasic, hkind, _, harray⟩ := hT.bracketed hself
    obtain ⟨v, hv⟩ : ∃ v, v = partVariable T name (b ++ bracket n) m.next := ⟨_, rfl⟩
    have hblock := block?_withPart_next hnext name parent v
    have hvar := varOf_withPart m name parent v m.vars.size
    have hnames' : A ∨ ∀ n c, (m.withPart name parent v).address? n = some c →
        n.length < (name ++ Slot.anyElement.suffix).length := by
      refine hnames.imp_right fun hlong n c hc => ?_
      have hle : n.length ≤ name.length := by
        rw [withPart, address?_withBlock] at hc
        split at hc
        · next heq => exact Nat.le_of_eq (congrArg _ heq.symm)
        · exact hlong n c hc
      rw [String.length_append]
      exact Nat.lt_of_le_of_lt hle (Nat.lt_add_of_pos_right (by decide))
    rw [List.length_append, List.length_singleton, ← Nat.add_assoc, allocateWithin]
    dsimp only
    rw [(hT.bracketed hu).1]
    refine Ends.bind (Ends.get (Ends.bind_ok rfl (Ends.bind (Ends.modify (Ends.bind ?_)))))
    show Ends _ (m.withPart name parent (partVariable T name (b ++ bracket n) m.next)) _ _
    rw [allocateParts, hbasic, harray, ← hv]
    refine Ends.bind (Ends.bind_ok (variableAt_of_pos hpos hblock) ?_)
    have hkind' : v.kind = .array := by rw [hv]; exact hkind
    have hpart : v.parts.get? .anyElement = none := by rw [hv]; rfl
    have helement : T.element v.type = .ok (b, n) := by
      rw [hv]
      exact hT.element hself (hparts n).2
        (hdims n (List.mem_append_right _ (List.mem_singleton_self n)))
    dsimp only
    rw [hvar, if_pos rfl, if_neg (not_not_intro hkind'), hpart]
    refine Ends.bind_ok (orFault_of_ok helement _) (Ends.bind (Ends.get ?_))
    dsimp only
    split
    · next a ha =>
      refine Ends.bind (Ends.modify (Ends.pure (Ends.pure (Ends.pure ?_))))
      exact hnames'.resolve_right fun hlong => Nat.lt_irrefl _ (hlong _ a ha)
    · refine Ends.bind (Ends.get (Ends.bind (Ends.modify (Ends.bind ?_))))
      refine (ih (fun d hd => hdims d (List.mem_append_left _ hd)) hb ?_ (Nat.succ_pos _)
        (hnames'.imp_right fun hlong n c hc => Nat.le_of_lt (hlong n c hc))).mono
        (fun _ _ hA => Ends.bind (Ends.get (Ends.pure (Ends.pure (Ends.pure hA))))) fun _ _ hB => hB
      show m.next + 1 = (m.blocks.push _).size
      rw [Array.size_push, hnext]

theorem ends_allocate_arrays (hm : Linked none m) (name : String) (parent : Nat)
    (hnames : A ∨ ∀ n c, m.address? n = some c → n.length ≤ name.length) :
    Ends (allocate T name (arrays t dims) parent none) m (fun _ _ => A) fun _ _ => B := by
  have hle := length_dims_le hne dims
  have hbound : layoutBound T m (arrays t dims) =
      (layoutBound T m (arrays t dims) - 1 - dims.length) + 1 + dims.length := by
    simp only [layoutBound]
    omega
  refine Ends.bind (Ends.get ?_)
  rw [hbound]
  exact ends_allocateWithin_arrays hT hne hbase hdims _ rfl hm.next hm.pos hnames

end Memory

namespace TypeTable

variable {T : TypeTable} {t u : String} {dims : List Nat}

/-! ### A star at the end -/

theorem marked_of_endsInStar (h : endsInStar t = true) : Marked t :=
  .inl (List.mem_of_getLast? (of_decide_eq_true h))

theorem Unmarked.star_answers (hT : T.Unmarked) (pre : String) (dims : List Nat) :
    T.kindOf (arrays (pre ++ "*") dims) = (if dims = [] then .pointer else .array) ∧
    T.isPointer (arrays (pre ++ "*") dims) = decide (dims = []) ∧
    T.isBasic (arrays (pre ++ "*") dims) = decide (dims = []) := by
  have hstar := endsInStar_normalize_star pre
  have hmarked := marked_of_endsInStar hstar
  rcases List.eq_nil_or_concat dims with rfl | ⟨dims, n, rfl⟩
  · have hdecode := hT.decode hmarked
    refine ⟨?_, (congrArg endsInStar hdecode).trans hstar, ?_⟩
    · show T.kindOf (pre ++ "*") = .pointer
      rw [kindOf, hdecode, hstar]
      rfl
    · show (_ || endsInStar (normalize (pre ++ "*"))) = true
      rw [hstar, Bool.or_true]
  · obtain ⟨b, _, _, hparts⟩ := exists_arrayParts
      (not_breaks_arrays (not_breaks_star pre) dims)
    rw [List.concat_eq_append, arrays_concat]
    obtain ⟨_, hbasic, hkind, hpointer, _⟩ := hT.bracketed (hparts n).1
    rw [hbasic, hkind, hpointer]
    simp

theorem Unmarked.star_size (hT : T.Unmarked) (pre : String)
    (hdims : ∀ n ∈ dims, n < 10 ^ Text.maxDigits) :
    TypeTable.size (arrays (pre ++ "*") dims) T = .ok (arraySize 1 dims) T := by
  obtain ⟨k, hk⟩ := hT.exists_size_arrays (not_breaks_star pre) hdims
  rw [hk, bind_of_ok (sizeWithin_star (endsInStar_normalize_star pre) k)]
  rfl

theorem Unmarked.star_layout (hT : T.Unmarked) (pre : String)
    (hdims : ∀ n ∈ dims, n < 10 ^ Text.maxDigits) {m : Memory} (hm : Linked none m)
    (name : String) (parent : Nat) :
    (value? (allocate T name (arrays (pre ++ "*") dims) parent none m)).isSome =
      true := by
  have hstar := endsInStar_normalize_star pre
  have hends := ends_allocate_arrays (A := True) (B := False) hT (not_breaks_star pre)
    (fun k name u parent m hu => ?_) hdims hm name parent (.inl trivial)
  · obtain ⟨a, m', hok, _⟩ := hends.exists_ok
    rw [hok]
    rfl
  · have hdecode : T.decode u = normalize (pre ++ "*") := by
      rw [hT.decode (hu ▸ marked_of_endsInStar hstar), hu]
    have hbasic : T.isBasic (normalize (pre ++ "*")) = true := by
      rw [isBasic, normalize_normalize, hstar, Bool.or_true]
    rw [allocateWithin]
    dsimp only
    rw [hdecode]
    refine Ends.bind (Ends.get (Ends.bind_ok rfl (Ends.bind (Ends.modify (Ends.bind ?_)))))
    rw [allocateParts, hbasic]
    exact Ends.pure (Ends.pure trivial)

/-! ### A qualifier behind the last star -/

section Hidden

variable {pre : List Char} {q : Qualifier}

theorem Unmarked.hidden_answers (hT : T.Unmarked)
    (h : (normalize t).toList = pre ++ '*' :: q.word.toList) :
    T.kindOf t = .builtin ∧ T.isPointer t = false ∧ T.isBasic t = false := by
  have hmarked : Marked (normalize t) := .inl (by simp [h])
  obtain ⟨hstar, hbracket, _⟩ := ends_of_qualifier h
  have hdecode := hT.decode hmarked
  have hstruct := hT.struct hmarked
  refine ⟨?_, (congrArg endsInStar hdecode).trans hstar, ?_⟩
  · rw [kindOf, hdecode, hstar, hbracket, Table.contains, hstruct]
    rfl
  · rw [isBasic, hT.isBuiltin hmarked, hstar]
    rfl

theorem Unmarked.hidden_size (hT : T.Unmarked) (hne : ¬ Text.Breaks t.toList)
    (h : (normalize t).toList = pre ++ '*' :: q.word.toList)
    (hdims : ∀ n ∈ dims, n < 10 ^ Text.maxDigits) :
    value? (TypeTable.size (arrays t dims) T) = none := by
  obtain ⟨k, hk⟩ := hT.exists_size_arrays hne hdims
  obtain ⟨e, he⟩ := hT.sizeWithin_hidden h k
  rw [hk, bind_of_error he]
  rfl

theorem Unmarked.hidden_layout (hT : T.Unmarked) (hne : ¬ Text.Breaks t.toList)
    (h : (normalize t).toList = pre ++ '*' :: q.word.toList)
    (hdims : ∀ n ∈ dims, n < 10 ^ Text.maxDigits) {m : Memory} (hm : Linked none m)
    {name : String} (parent : Nat)
    (hnames : ∀ n c, m.address? n = some c → n.length ≤ name.length) :
    value? (allocate T name (arrays t dims) parent none m) = none := by
  have hmarked : Marked (normalize t) := .inl (by simp [h])
  have hends := ends_allocate_arrays (A := False) (B := True) hT hne
    (fun k name u parent m hu => ?_) hdims hm name parent (.inr hnames)
  · cases hx : allocate T name (arrays t dims) parent none m with
    | ok a m' => exact (hends.value a m' hx).elim
    | error e m' => rfl
  · have hself : (normalize (normalize t)).toList = pre ++ '*' :: q.word.toList := by
      rwa [normalize_normalize]
    obtain ⟨_, _, hbasic⟩ := hT.hidden_answers hself
    have hdecode : T.decode u = normalize t := by rw [hT.decode (hu ▸ hmarked), hu]
    have harray : T.isArray (normalize t) = false := by
      rw [isArray, hT.decode (by rwa [normalize_normalize]),
        normalize_normalize]
      exact (ends_of_qualifier h).2.1
    have hrecord : T.recordFor? (normalize t) = none := by
      rw [recordFor?, hT.struct hmarked]
      dsimp only
      rw [hT.struct (.inl (by simp [h])), ite_self]
    rw [allocateWithin]
    dsimp only
    rw [hdecode]
    refine Ends.bind (Ends.get (Ends.bind_ok rfl (Ends.bind (Ends.modify (Ends.bind ?_)))))
    rw [allocateParts, hbasic, harray, hrecord]
    exact Ends.throw trivial

end Hidden

end TypeTable

/-- Qualifiers change nothing if the last star of a type has none behind it, or the type has no
star.  Else the type has no size and is not laid out, and is no pointer any more. -/
theorem TypeTable.qualified_alike_iff {T : TypeTable} (hT : T.Unmarked) (q : TypeName.Qualified)
    (hdims : ∀ n ∈ q.dims, n < 10 ^ Text.maxDigits) :
    (Alike T q.spelling q.plain.spelling ↔ q.LastPlain) ∧
    (¬ q.LastPlain →
      ((value? (size q.plain.spelling T)).isSome = true ∧ value? (size q.spelling T) = none) ∧
      (∀ m : Memory, Memory.Linked none m → ∀ name parent,
        (value? (Memory.allocate T name q.plain.spelling parent none m)).isSome = true ∧
        ((∀ n c, m.address? n = some c → n.length ≤ name.length) →
          value? (Memory.allocate T name q.spelling parent none m) = none)) ∧
      (q.dims = [] → T.kindOf q.spelling = .builtin ∧ T.isPointer q.spelling = false ∧
        T.isBasic q.spelling = false)) := by
  cases hlast : q.stars.getLast? with
  | none =>
    have hstars := List.getLast?_eq_none_iff.mp hlast
    have hplain : q.LastPlain := by simp [TypeName.Qualified.LastPlain, hlast]
    refine ⟨iff_of_true (.of_normalize ?_) hplain, absurd hplain⟩
    simp only [TypeName.Qualified.spelling, TypeName.Qualified.plain, TypeName.arrays_append,
      TypeName.normalize_before, hstars, List.map_nil]
  | some qs =>
    obtain ⟨pre, pre', hspelling, hplain⟩ := q.exists_spelling hlast
    have hiff : q.LastPlain ↔ qs = [] := by simp [TypeName.Qualified.LastPlain, hlast]
    have hsize := hT.star_size pre' hdims
    rw [hiff, hspelling, hplain]
    cases qs with
    | nil =>
      refine ⟨iff_of_true ?_ rfl, fun h => absurd rfl h⟩
      obtain ⟨hkind, hpointer, hbasic⟩ := hT.star_answers pre q.dims
      obtain ⟨hkind', hpointer', hbasic'⟩ := hT.star_answers pre' q.dims
      exact ⟨hkind.trans hkind'.symm, hpointer.trans hpointer'.symm, hbasic.trans hbasic'.symm,
        (hT.star_size pre hdims).trans hsize.symm, fun m hm name parent =>
          (hT.star_layout pre hdims hm name parent).trans
            (hT.star_layout pre' hdims hm name parent).symm⟩
    | cons q₀ qs =>
      obtain ⟨pre₁, hpre₁⟩ := TypeName.exists_normalize_behindStar pre q₀ qs
      have hne := TypeName.not_breaks_behindStar pre q₀ qs
      have hlost := hT.hidden_size hne hpre₁ hdims
      refine ⟨iff_of_false (fun h => ?_) (by simp), fun _ => ⟨⟨by rw [hsize]; rfl, hlost⟩,
        fun m hm name parent => ⟨hT.star_layout pre' hdims hm name parent,
          hT.hidden_layout hne hpre₁ hdims hm parent⟩, fun hnil => ?_⟩⟩
      · rw [h.size, hsize] at hlost
        cases hlost
      · rw [hnil]
        exact hT.hidden_answers hpre₁

/-- A qualifier behind the last star matters, one before it does not. -/
theorem TypeTable.qualified_alike_iff_int :
    ¬ Alike {} "int *const" "int *" ∧ Alike {} "const int *const *" "int **" := by
  have hconst := (qualified_alike_iff unmarked_empty ⟨[], "int", [[.const]], []⟩ (by simp)).1
  have hinner := (qualified_alike_iff unmarked_empty ⟨[.const], "int", [[.const], []], []⟩
    (by simp)).1
  exact ⟨fun h => absurd (hconst.mp h) (by decide), hinner.mpr (by decide)⟩

/-- A constant pointer is no pointer for the table.  It has no size and cannot be laid out. -/
theorem TypeTable.constPointer_lost :
    (({} : TypeTable).kindOf "int *const" ≠ ({} : TypeTable).kindOf "int *" ∧
      ({} : TypeTable).isPointer "int *const" ≠ ({} : TypeTable).isPointer "int *" ∧
      ({} : TypeTable).isBasic "int *const" ≠ ({} : TypeTable).isBasic "int *") ∧
    value? (size "int *const" {}) ≠ value? (size "int *" {}) ∧
    value? (Memory.allocate {} "p" "int *const" 0 none {}) ≠
      value? (Memory.allocate {} "p" "int *" 0 none {}) := by
  decide +kernel

end Footprint
