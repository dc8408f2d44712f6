import Mathlib.Data.List.Chain
import Footprint.Proofs.Types.Sized

/-!
# The normal form of a spelling

A spelling is brought to its normal form by cutting it into words, dropping the
qualifiers and joining the rest by single spaces.  The words of a text so joined
are the words it was joined from, so a second pass finds nothing to drop.  This is
why no question about a type can tell a spelling from its normal form, however
often the form is taken on the way.
-/

namespace Footprint

open Footprint.TypeName

namespace Text

/-- The text neither begins nor ends with a blank, and no blank follows another. -/
structure Tidy (cs : List Char) : Prop where
  head : ∀ c ∈ cs.head?, isBlank c = false
  last : ∀ c ∈ cs.getLast?, isBlank c = false
  apart : cs.IsChain fun c d => isBlank c = true → isBlank d = false

theorem tidy_nil : Tidy [] where
  head _ h := absurd h (by simp)
  last _ h := absurd h (by simp)
  apart := .nil

variable {w : List Char}

theorem IsWord.tidy (h : IsWord w) : Tidy w where
  head c hc := h.2 c (List.mem_of_mem_head? hc)
  last c hc := h.2 c (List.mem_of_getLast? hc)
  apart := List.isChain_iff_getElem.mpr fun _ _ _ => h.2 _ (List.getElem_mem _)

/-- A word can be put before a tidy text, with one space between them. -/
theorem Tidy.cons {cs : List Char} (hw : IsWord w) (h : Tidy cs) (hne : cs ≠ []) :
    Tidy (w ++ ([' '] ++ cs)) where
  head c hc := by
    rw [List.head?_append_of_ne_nil _ hw.1] at hc
    exact hw.tidy.head c hc
  last c hc := by
    rw [List.getLast?_append_of_ne_nil _ (by simp), List.getLast?_append_of_ne_nil _ hne] at hc
    exact h.last c hc
  apart := by
    have hcs : ([' '] ++ cs).IsChain fun c d => isBlank c = true → isBlank d = false :=
      List.isChain_append.mpr ⟨.singleton _, h.apart, fun _ _ d hd _ => h.head d hd⟩
    refine List.isChain_append.mpr ⟨hw.tidy.apart, hcs, fun c hc _ _ hblank => ?_⟩
    -- the last character of the word is no blank
    rw [hw.tidy.last c hc] at hblank
    cases hblank

theorem intercalate_ne_nil (hw : IsWord w) (ws : List (List Char)) :
    [' '].intercalate (w :: ws) ≠ [] := by
  cases ws with
  | nil => rw [List.intercalate_singleton]; exact hw.1
  | cons v ws => rw [List.intercalate_cons_cons]; simp

theorem tidy_intercalate : ∀ {ws : List (List Char)}, (∀ w ∈ ws, IsWord w) →
    Tidy ([' '].intercalate ws)
  | [], _ => tidy_nil
  | [w], h => by
    rw [List.intercalate_singleton]
    exact (h w List.mem_cons_self).tidy
  | w :: v :: ws, h => by
    have hrest : ∀ w ∈ v :: ws, IsWord w := fun w hw => h w (List.mem_cons_of_mem _ hw)
    rw [List.intercalate_cons_cons, List.append_assoc]
    exact (tidy_intercalate hrest).cons (h w List.mem_cons_self)
      (intercalate_ne_nil (hrest v List.mem_cons_self) ws)

theorem splitOn_intercalate_words {ws : List (List Char)} (h : ∀ w ∈ ws, IsWord w) (hne : ws ≠ []) :
    ([' '].intercalate ws).splitOn ' ' = ws :=
  List.splitOn_intercalate ' ' (fun w hw hmem => absurd ((h w hw).2 ' ' hmem) (by decide)) hne

end Text

namespace TypeName

theorem isWord_of_mem_kept {t : String} {w : List Char} (h : w ∈ kept (Text.words t.toList)) :
    Text.IsWord w :=
  Text.isWord_of_mem_words (List.mem_of_mem_filter h)

/-- A normal form begins and ends with a word, and has one space between two words. -/
theorem tidy_normalize (t : String) : Text.Tidy (normalize t).toList := by
  rw [toList_normalize]
  exact Text.tidy_intercalate fun _ => isWord_of_mem_kept

/-- What stands between the spaces of a normal form is no qualifier. -/
theorem splitOn_normalize_ne_qualifier (t : String) :
    ∀ w ∈ (normalize t).toList.splitOn ' ', String.ofList w ∉ qualifiers := by
  intro w hw
  rw [toList_normalize] at hw
  by_cases hne : kept (Text.words t.toList) = []
  · rw [hne, List.intercalate_nil, List.splitOn_nil, List.mem_singleton] at hw
    rw [hw]
    decide
  · rw [Text.splitOn_intercalate_words (fun _ => isWord_of_mem_kept) hne] at hw
    have hkept := (List.mem_filter.mp hw).2
    simpa using hkept

end TypeName

namespace TypeTable

@[simp] theorem decode_normalize (T : TypeTable) (t : String) :
    T.decode (normalize t) = T.decode t := by
  rw [decode, normalize_normalize, decode]

/-- Only the text that is quoted where there is no array tells the spellings apart. -/
theorem element_normalize (T : TypeTable) (t : String) :
    T.element (normalize t) = T.element t ∨
      T.element (normalize t) = .error (.notArray (normalize t)) ∧
        T.element t = .error (.notArray t) := by
  unfold element
  rw [decode_normalize]
  by_cases h : T.isArray (T.decode t) = true
  · simp only [if_pos h, true_or]
  · rw [if_neg h, if_neg h]
    exact .inr ⟨rfl, rfl⟩

theorem sizeWithin_normalize (bound : Nat) (t : String) :
    sizeWithin bound (normalize t) = sizeWithin bound t := by
  cases bound with
  | zero => rfl
  | succ bound => rw [sizeWithin, normalize_normalize, sizeWithin]

theorem size_normalize (t : String) : size (normalize t) = size t := by
  unfold size sizeBound
  simp only [normalize_normalize, sizeWithin_normalize]

/-- A normal form is its own normal form.  It is tidy and has no qualifier among its words, and no
question about a type tells it from the spelling that it is taken of. -/
theorem normal_form_alike (T : TypeTable) (t : String) :
    TypeName.normalize (TypeName.normalize t) = TypeName.normalize t ∧
      Text.Tidy (TypeName.normalize t).toList ∧
      (∀ w ∈ (TypeName.normalize t).toList.splitOn ' ', String.ofList w ∉ TypeName.qualifiers) ∧
      T.decode (TypeName.normalize t) = T.decode t ∧
      T.kindOf (TypeName.normalize t) = T.kindOf t ∧
      T.isArray (TypeName.normalize t) = T.isArray t ∧
      T.isPointer (TypeName.normalize t) = T.isPointer t ∧
      T.isStruct (TypeName.normalize t) = T.isStruct t ∧
      T.isBasic (TypeName.normalize t) = T.isBasic t ∧
      (T.element (TypeName.normalize t) = T.element t ∨
        T.element (TypeName.normalize t) = .error (.notArray (TypeName.normalize t)) ∧
          T.element t = .error (.notArray t)) ∧
      size (TypeName.normalize t) T = size t T := by
  refine ⟨TypeName.normalize_normalize t, TypeName.tidy_normalize t,
    TypeName.splitOn_normalize_ne_qualifier t, T.decode_normalize t, ?_, ?_, ?_, ?_,
    T.isBasic_normalize t, T.element_normalize t, by rw [size_normalize]⟩
  · rw [kindOf, decode_normalize, kindOf]
  · rw [isArray, decode_normalize, isArray]
  · rw [isPointer, decode_normalize, isPointer]
  · rw [isStruct, decode_normalize, isStruct]

end TypeTable

end Footprint
