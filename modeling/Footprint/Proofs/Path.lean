import Mathlib
import Footprint.Proofs.Memory.Changes

/-!
# Names as paths

The name of a block is a root and a row of slots, written one after the other.
Read as a path it gives the root and the slots back (`parse_written`), so that
no name is written in two ways (`written_inj`).

A path can be written in more ways than one: an arrow for a point, blanks and
leading zeros in brackets.  `canonical` puts it in the way of names.  What the
steps of any path spell is its canonical form (`canonical_of_nameAlong`), and
names are canonical (`canonical_written`).

Indices are written with decimal digits.  One with more digits than a number may
have cannot be read again.
-/

namespace Footprint

open Text

/-! ## Numbers -/

namespace Text

section Digit

variable {c : Char} (h : c.isDigit = true)

include h

theorem decimalValue?_of_isDigit : decimalValue? c = some (c.toNat - 48) := by
  obtain ⟨hlo, hhi⟩ : 48 ≤ c.toNat ∧ c.toNat ≤ 57 := Char.isDigit_iff_toNat.mp h
  simp [decimalValue?, zeros, hlo, hhi]

theorem not_isBlank_of_isDigit : isBlank c = false := by
  have hrange : 48 ≤ c.toNat ∧ c.toNat ≤ 57 := Char.isDigit_iff_toNat.mp h
  simp only [isBlank, Bool.or_eq_false_iff, Bool.and_eq_false_iff, decide_eq_false_iff_not,
    beq_eq_false_iff_ne]
  omega

end Digit

section Digits

variable {cs : List Char} (h : ∀ c ∈ cs, c.isDigit = true)

include h

theorem digitValues?_of_isDigit (hne : cs ≠ []) :
    digitValues? cs = some (cs.map fun c => c.toNat - 48) := by
  fun_induction digitValues? cs with
  | case1 => exact absurd rfl hne
  | case2 c => simp [decimalValue?_of_isDigit (h c (List.mem_singleton_self c))]
  | case3 c rest ih => cases h '_' (by simp)
  | case4 c rest hrest _ ih =>
    have hvalues := ih (fun d hd => h d (List.mem_cons_of_mem c hd)) hrest
    simp [decimalValue?_of_isDigit (h c (List.mem_cons_self ..)), hvalues]

end Digits

section Trimmed

variable {cs : List Char} {p : Char → Bool}

theorem dropWhile_of_not (h : ∀ c ∈ cs, p c = false) : cs.dropWhile p = cs := by
  cases cs with
  | nil => rfl
  | cons c cs => exact List.dropWhile_cons_of_neg (by simp [h c (List.mem_cons_self ..)])

theorem dropWhile_reverse_of_not (h : ∀ c ∈ cs, p c = false) :
    (cs.reverse.dropWhile p).reverse = cs := by
  rw [dropWhile_of_not fun c hc => h c (List.mem_reverse.mp hc), List.reverse_reverse]

theorem trim_of_not_blank (h : ∀ c ∈ cs, isBlank c = false) : trim cs = cs := by
  rw [trim, trimLeft, dropWhile_of_not h]
  exact dropWhile_reverse_of_not h

/-- A text without blanks and signs is read by its digits. -/
theorem readInt_ofList (hblank : ∀ c ∈ cs, isBlank c = false)
    (hsign : ∀ c ∈ cs, c ≠ '-' ∧ c ≠ '+') : readInt (String.ofList cs) =
      (digitValues? cs).elim (.error (.badNumber (String.ofList cs))) fun ds =>
        if maxDigits < ds.length then .error .longNumber else .ok (ofDigitValues ds : Int) := by
  have hnumber : ∀ c ∈ cs, isNumberBlank c = false := by
    intro c hc
    simp [isNumberBlank, hblank c hc]
  unfold readInt
  dsimp only
  rw [String.toList_ofList, dropWhile_of_not hnumber, dropWhile_reverse_of_not hnumber]
  cases cs with
  | nil => rfl
  | cons c cs =>
    obtain ⟨hminus, hplus⟩ := hsign c (List.mem_cons_self ..)
    simp only [List.cons.injEq, hminus, hplus, false_and, imp_false, not_false_eq_true,
      implies_true]
    cases digitValues? (c :: cs) with
    | none => rfl
    | some ds => rfl

end Trimmed

theorem ofDigitValues_eq (cs : List Char) :
    ofDigitValues (cs.map fun c => c.toNat - 48) = Nat.ofDigitChars 10 cs 0 := by
  unfold ofDigitValues Nat.ofDigitChars
  rw [List.foldl_map]
  congr 1
  funext n c
  rw [Nat.mul_comm]
  rfl

variable {i : Nat} {cs : List Char}

theorem isDigit_of_mem_toString {c : Char} (h : c ∈ (toString i).toList) : c.isDigit = true := by
  rw [Nat.toString_eq_repr, Nat.toList_repr] at h
  exact Nat.isDigit_of_mem_toDigits (by decide) (by decide) h

theorem toList_toString_ne_nil (i : Nat) : (toString i).toList ≠ [] := by
  rw [Nat.toString_eq_repr, Nat.toList_repr]
  exact Nat.toDigits_ne_nil

theorem toString_ne_question (i : Nat) : toString i ≠ "?" := by
  intro he
  have hmem : '?' ∈ (toString i).toList := by rw [he]; decide
  cases isDigit_of_mem_toString hmem

theorem toString_inj {j : Nat} (h : toString i = toString j) : i = j := by
  have hdigits : Nat.toDigits 10 i = Nat.toDigits 10 j := by
    simpa only [Nat.toString_eq_repr, Nat.toList_repr] using congrArg String.toList h
  have hvalues := congrArg (fun ds => Nat.ofDigitChars 10 ds 0) hdigits
  simpa using hvalues

theorem allDigits_toString (i : Nat) : allDigits (toString i) = true := by
  have hne := toList_toString_ne_nil i
  simp only [allDigits, Bool.and_eq_true, Bool.not_eq_true', List.all_eq_true]
  constructor
  · rw [Bool.eq_false_iff]
    intro hempty
    simp at hempty
  · intro c hc
    rw [isDigit, decimalValue?_of_isDigit (isDigit_of_mem_toString hc)]
    rfl

/-- Digits are read as the number that they write, if they are few enough. -/
theorem readInt_of_isDigit (h : ∀ c ∈ cs, c.isDigit = true) (hne : cs ≠ []) :
    readInt (String.ofList cs) =
      if maxDigits < cs.length then .error .longNumber
      else .ok (Nat.ofDigitChars 10 cs 0 : Int) := by
  have hsign : ∀ c ∈ cs, c ≠ '-' ∧ c ≠ '+' := by
    intro c hc
    have hdigit := h c hc
    constructor
    · rintro rfl
      cases hdigit
    · rintro rfl
      cases hdigit
  rw [readInt_ofList (fun c hc => not_isBlank_of_isDigit (h c hc)) hsign,
    digitValues?_of_isDigit h hne, Option.elim_some, List.length_map, ofDigitValues_eq]

/-- A number with few enough digits is read as it was written. -/
theorem readDigits_toString (h : i < 10 ^ maxDigits) : readDigits (toString i) = .ok i := by
  have hlength : (toString i).toList.length ≤ maxDigits := by
    rw [Nat.toString_eq_repr, Nat.toList_repr]
    exact (Nat.length_toDigits_le_iff (by decide) (by decide)).mpr h
  have hvalue : Nat.ofDigitChars 10 (toString i).toList 0 = i := by
    rw [Nat.toString_eq_repr, Nat.toList_repr]
    exact Nat.ofDigitChars_toDigits (by decide) (by decide)
  have hread := readInt_of_isDigit (fun _ => isDigit_of_mem_toString) (toList_toString_ne_nil i)
  rw [String.ofList_toList, if_neg (Nat.not_lt.mpr hlength), hvalue] at hread
  rw [readDigits, hread]
  rfl

theorem decimalValue?_lt {c : Char} {d : Nat} (h : decimalValue? c = some d) : d < 10 := by
  obtain ⟨z, hz, rfl⟩ := Option.map_eq_some_iff.mp h
  have hfound := List.find?_some hz
  simp only [Bool.and_eq_true, decide_eq_true_eq] at hfound
  omega

theorem digitValues?_lt : ∀ {ds : List Nat}, digitValues? cs = some ds → ∀ d ∈ ds, d < 10 := by
  fun_induction digitValues? cs with
  | case1 => exact fun h => nomatch h
  | case2 c =>
    intro ds h d hd
    obtain ⟨v, hv, rfl⟩ := Option.map_eq_some_iff.mp h
    cases List.mem_singleton.mp hd
    exact decimalValue?_lt hv
  | case3 c rest ih | case4 c rest _ _ ih =>
    intro ds h d hd
    obtain ⟨v, hv, h⟩ := Option.bind_eq_some_iff.mp h
    obtain ⟨vs, hvs, h⟩ := Option.bind_eq_some_iff.mp h
    cases h
    rcases List.mem_cons.mp hd with rfl | hd
    · exact decimalValue?_lt hv
    · exact ih hvs d hd

theorem ofDigitValues_lt {ds : List Nat} (h : ∀ d ∈ ds, d < 10) :
    ofDigitValues ds < 10 ^ ds.length := by
  suffices ∀ n k, n < 10 ^ k → ds.foldl (fun n d => n * 10 + d) n < 10 ^ (k + ds.length) by
    simpa [ofDigitValues] using this 0 0 (by decide)
  induction ds with
  | nil => exact fun n k hn => hn
  | cons d ds ih =>
    intro n k hn
    have hd := h d (List.mem_cons_self ..)
    have hstep : n * 10 + d < 10 ^ (k + 1) := by
      rw [Nat.pow_succ]
      omega
    have hrest := ih (fun d' hd' => h d' (List.mem_cons_of_mem d hd')) _ _ hstep
    rwa [List.foldl_cons, List.length_cons, Nat.add_comm ds.length, ← Nat.add_assoc]

/-- A number that is read has few enough digits. -/
theorem lt_of_readDigits {s : String} (h : readDigits s = .ok i) : i < 10 ^ maxDigits := by
  unfold readDigits at h
  split at h
  · next n hn =>
    cases h
    unfold readInt at hn
    dsimp only at hn
    split at hn
    · cases hn
    · next ds hds =>
      split at hn
      · cases hn
      · next hlength =>
        have hlt := ofDigitValues_lt (digitValues?_lt hds)
        have hpow : 10 ^ ds.length ≤ 10 ^ maxDigits :=
          Nat.pow_le_pow_right (by decide) (Nat.not_lt.mp hlength)
        have hn := Except.ok.inj hn
        have hle : n.toNat ≤ ofDigitValues ds := by
          rw [← hn]
          split <;> omega
        omega
  · cases h

end Text

/-! ## Plain texts -/

/-- A text without a point, an opening bracket or an arrow. -/
structure Path.Plain (cs : List Char) : Prop where
  point : '.' ∉ cs
  bracket : '[' ∉ cs
  arrow : ¬ ['-', '>'] <:+: cs

namespace Path

instance (cs : List Char) : Decidable (Plain cs) :=
  decidable_of_iff ('.' ∉ cs ∧ '[' ∉ cs ∧ ¬ ['-', '>'] <:+: cs)
    ⟨fun h => ⟨h.1, h.2.1, h.2.2⟩, fun h => ⟨h.point, h.bracket, h.arrow⟩⟩

variable {cs : List Char}

theorem Plain.tail {c : Char} (h : Plain (c :: cs)) : Plain cs where
  point hc := h.point (List.mem_cons_of_mem c hc)
  bracket hc := h.bracket (List.mem_cons_of_mem c hc)
  arrow hc := h.arrow (hc.trans (List.suffix_cons c cs).isInfix)

/-- The text is empty, or it starts with a point or a bracket, as slots do. -/
def Opens : List Char → Prop
  | [] => True
  | c :: _ => c = '.' ∨ c = '['

/-- A plain text is read up to where a slot opens. -/
theorem plainPart_plain {rest : List Char} (h : Plain cs) (hrest : Opens rest) :
    plainPart (cs ++ rest) = (cs, rest) := by
  induction cs with
  | nil =>
    cases rest with
    | nil => rfl
    | cons c rest => rcases hrest with rfl | rfl <;> simp [plainPart]
  | cons c cs ih =>
    have hpoint : c ≠ '.' := fun hc => h.point (hc ▸ List.mem_cons_self ..)
    have hbracket : c ≠ '[' := fun hc => h.bracket (hc ▸ List.mem_cons_self ..)
    have harrow : ¬ (c = '-' ∧ (cs ++ rest).head? = some '>') := by
      rintro ⟨rfl, hhead⟩
      cases cs with
      | nil =>
        cases rest with
        | nil => cases hhead
        | cons d rest =>
          cases hhead
          rcases hrest with hd | hd <;> cases hd
      | cons d cs =>
        cases hhead
        exact h.arrow ⟨[], cs, rfl⟩
    have ih := ih h.tail
    simp only [List.cons_append, plainPart]
    rw [if_neg (by simp [hpoint, hbracket]; simpa using harrow), ih]

end Path

/-! ## Slots -/

namespace Slot

/-- The slot can be read again: a member has a plain name, and an index few enough digits. -/
def Plain : Slot → Prop
  | .member name => name ≠ "" ∧ Path.Plain name.toList
  | .element i => i < 10 ^ maxDigits
  | .anyElement => True

/-- The step of a path that a slot is written as. -/
def step : Slot → Step
  | .member name => .member name
  | .element i => .index (toString i)
  | .anyElement => .index "?"

theorem step_inj {s s' : Slot} (h : s.step = s'.step) : s = s' := by
  have hmark := toString_ne_question
  cases s with
  | member name =>
    cases s' with
    | member name' => rw [Step.member.inj h]
    | element i => cases h
    | anyElement => cases h
  | element i =>
    cases s' with
    | member name' => cases h
    | element j => rw [toString_inj (Step.index.inj h)]
    | anyElement => exact absurd (Step.index.inj h) (hmark i)
  | anyElement =>
    cases s' with
    | member name' => cases h
    | element j => exact absurd (Step.index.inj h).symm (hmark j)
    | anyElement => rfl

theorem opens_suffix (s : Slot) (rest : List Char) : Path.Opens (s.suffix.toList ++ rest) := by
  cases s with
  | member name => simp [suffix, Path.Opens]
  | element i => simp [suffix, Path.Opens]
  | anyElement => simp [suffix, Path.Opens]

theorem slotOf_step {s : Slot} {text : String} (hs : s.Plain) (h : s.step = .index text) :
    Memory.slotOf text = .ok (some s) := by
  cases s with
  | member name => cases h
  | element i =>
    cases h
    rw [Memory.slotOf, if_neg (toString_ne_question i), if_pos (allDigits_toString i),
      readDigits_toString hs]
    rfl
  | anyElement =>
    cases h
    rfl

end Slot

/-! ## Written names -/

namespace Path

/-- A root with slots after it. -/
def written (root : String) (slots : List Slot) : String :=
  slots.foldl (fun name s => name ++ s.suffix) root

theorem written_append (root : String) (slots : List Slot) (s : Slot) :
    written root (slots ++ [s]) = written root slots ++ s.suffix := by
  rw [written, List.foldl_append]
  rfl

/-- The characters of slots. -/
def slotChars (slots : List Slot) : List Char := slots.flatMap fun s => s.suffix.toList

theorem toList_written (root : String) (slots : List Slot) :
    (written root slots).toList = root.toList ++ slotChars slots := by
  induction slots generalizing root with
  | nil => simp [written, slotChars]
  | cons s slots ih =>
    have h := ih (root ++ s.suffix)
    simpa [written, slotChars] using h

theorem opens_slotChars : ∀ slots : List Slot, Opens (slotChars slots)
  | [] => trivial
  | s :: _ => s.opens_suffix _

variable {text rest cs : List Char} {slots : List Slot} {root : String}

theorem bracketPart_append (h : ']' ∉ text) (rest : List Char) :
    bracketPart (text ++ ']' :: rest) = some (text, rest) := by
  induction text with
  | nil => simp [bracketPart]
  | cons c text ih =>
    have hc : c ≠ ']' := fun hc => h (hc ▸ List.mem_cons_self ..)
    simp [bracketPart, hc, ih fun hmem => h (List.mem_cons_of_mem c hmem)]

theorem stepsWithin_bracket (bound : Nat) (h : ']' ∉ text) (rest : List Char) :
    stepsWithin (bound + 1) ('[' :: (text ++ ']' :: rest)) =
      .index (String.ofList (trim text)) :: stepsWithin bound rest := by
  simp [stepsWithin, afterMark?, afterBracket?, bracketPart_append h]

/-- One slot is read as its step. -/
theorem stepsWithin_suffix (bound : Nat) {s : Slot} (hs : s.Plain) (hrest : Opens rest) :
    stepsWithin (bound + 1) (s.suffix.toList ++ rest) = s.step :: stepsWithin bound rest := by
  cases s with
  | member name =>
    obtain ⟨hne, hplain⟩ := hs
    have hpart := plainPart_plain hplain hrest
    have hempty : name.toList ≠ [] := by simpa using hne
    simp [Slot.suffix, Slot.step, stepsWithin, afterMark?, hpart, hempty]
  | element i =>
    have hdigits : ∀ c ∈ (toString i).toList, c.isDigit = true :=
      fun _ => isDigit_of_mem_toString
    have hclose : ']' ∉ (toString i).toList := fun hc => by cases hdigits ']' hc
    have hread := stepsWithin_bracket bound hclose rest
    rw [trim_of_not_blank fun c hc => not_isBlank_of_isDigit (hdigits c hc),
      String.ofList_toList] at hread
    simpa [Slot.suffix, Slot.step] using hread
  | anyElement =>
    have hclose : ']' ∉ ['?'] := by decide
    exact stepsWithin_bracket bound hclose rest

theorem stepsWithin_slotChars (h : ∀ s ∈ slots, s.Plain) :
    ∀ {bound : Nat}, (slotChars slots).length ≤ bound →
      stepsWithin bound (slotChars slots) = slots.map Slot.step := by
  induction slots with
  | nil =>
    intro bound _
    cases bound <;> rfl
  | cons s slots ih =>
    intro bound hbound
    have hpos : 0 < s.suffix.toList.length := by cases s <;> simp [Slot.suffix]
    have hlength : (slotChars (s :: slots)).length =
        s.suffix.toList.length + (slotChars slots).length := by simp [slotChars]
    obtain ⟨bound, rfl⟩ : ∃ b, bound = b + 1 := ⟨bound - 1, by omega⟩
    have hread := stepsWithin_suffix bound (h s (List.mem_cons_self ..)) (opens_slotChars slots)
    have hbound : (slotChars slots).length ≤ bound := by omega
    rw [ih (fun s' hs' => h s' (List.mem_cons_of_mem s hs')) hbound] at hread
    exact hread

/-- A name is read as the root and the slots that it was written from. -/
theorem parse_written (hroot : Plain root.toList) (hslots : ∀ s ∈ slots, s.Plain) :
    parse (written root slots) = (root, slots.map Slot.step) := by
  rw [parse, toList_written, plainPart_plain hroot (opens_slotChars slots)]
  simp [steps, stepsWithin_slotChars hslots (Nat.le_refl _)]

theorem written_inj {root' : String} {slots' : List Slot} (hroot : Plain root.toList)
    (hroot' : Plain root'.toList) (hslots : ∀ s ∈ slots, s.Plain) (hslots' : ∀ s ∈ slots', s.Plain)
    (h : written root slots = written root' slots') : root = root' ∧ slots = slots' := by
  have hparse := congrArg parse h
  rw [parse_written hroot hslots, parse_written hroot' hslots'] at hparse
  obtain ⟨hsame, hsteps⟩ := Prod.mk.inj hparse
  exact ⟨hsame, (List.map_inj_right fun _ _ => Slot.step_inj).mp hsteps⟩

/-! ## Canonical forms -/

/-- What stands between brackets in canonical form: the number that its digits write, or else the
text without the blanks around it. -/
def canonicalIndex (cs : List Char) : String :=
  let text := String.ofList (trim cs)
  match readDigits text with
  | .ok i => toString i
  | .error _ => text

/-- The canonical form of what is left of a path.  Inside brackets the characters since the opening
one are held, the last first. -/
def canonicalFrom : Option (List Char) → List Char → List Char
  | none, [] => []
  | some held, [] => '[' :: held.reverse
  | none, '-' :: '>' :: cs => '.' :: canonicalFrom none cs
  | none, '[' :: cs => canonicalFrom (some []) cs
  | none, c :: cs => c :: canonicalFrom none cs
  | some held, ']' :: cs =>
    '[' :: ((canonicalIndex held.reverse).toList ++ ']' :: canonicalFrom none cs)
  | some held, c :: cs => canonicalFrom (some (c :: held)) cs

/-- The canonical form of a path: points for arrows, and in brackets the number that is meant. -/
def canonical (path : String) : String := String.ofList (canonicalFrom none path.toList)

theorem canonicalFrom_cons {c : Char} (hbracket : c ≠ '[')
    (harrow : ¬ (c = '-' ∧ cs.head? = some '>')) :
    canonicalFrom none (c :: cs) = c :: canonicalFrom none cs := by
  rw [canonicalFrom]
  · rintro cs rfl rfl
    exact harrow ⟨rfl, rfl⟩
  · exact hbracket

theorem canonicalFrom_plainPart (cs : List Char) :
    canonicalFrom none cs = (plainPart cs).1 ++ canonicalFrom none (plainPart cs).2 := by
  induction cs with
  | nil => rfl
  | cons c cs ih =>
    unfold plainPart
    split
    · rfl
    · next hc =>
      simp only [Bool.or_eq_true, Bool.and_eq_true, decide_eq_true_eq, not_or] at hc
      rw [canonicalFrom_cons hc.1.2 hc.2, ih]
      rfl

/-- An index is put into its canonical form. -/
theorem canonicalFrom_bracket {held : List Char} (h : bracketPart cs = some (text, rest)) :
    canonicalFrom (some held) cs =
    '[' :: ((canonicalIndex (held.reverse ++ text)).toList ++ ']' :: canonicalFrom none rest) := by
  induction cs generalizing held text with
  | nil => cases h
  | cons c cs ih =>
    unfold bracketPart at h
    split at h
    · next hc =>
      cases h
      subst hc
      simp [canonicalFrom]
    · next hc =>
      obtain ⟨⟨text', rest'⟩, hrest, heq⟩ := Option.map_eq_some_iff.mp h
      cases heq
      have hstep : canonicalFrom (some held) (c :: cs) = canonicalFrom (some (c :: held)) cs := by
        conv_lhs => unfold canonicalFrom
        split
        all_goals simp_all
      rw [hstep, ih hrest]
      simp

theorem canonicalFrom_mark (h : afterMark? cs = some rest) :
    canonicalFrom none cs = '.' :: canonicalFrom none rest := by
  unfold afterMark? at h
  split at h
  · cases h
    exact canonicalFrom_cons (by decide) (by simp)
  · cases h
    simp [canonicalFrom]
  · cases h

/-- An index that picks an element is written as in names. -/
theorem suffix_of_slotOf {s : Slot}
    (h : Memory.slotOf (String.ofList (trim text)) = .ok (some s)) :
    s.suffix = "[" ++ canonicalIndex text ++ "]" := by
  unfold Memory.slotOf at h
  unfold canonicalIndex
  dsimp only
  split at h
  · next hmark =>
    cases h
    rw [hmark]
    rfl
  · split at h
    · cases hread : readDigits (String.ofList (trim text)) with
      | ok i =>
        rw [hread] at h
        cases h
        rfl
      | error e =>
        rw [hread] at h
        cases h
    · cases h

/-- What steps spell after a name is the canonical form of what they were read from. -/
theorem toList_of_nameAlong : ∀ (bound : Nat) {cs : List Char} {name n : String},
    Memory.nameAlong name (stepsWithin bound cs) = some n →
      n.toList = name.toList ++ canonicalFrom none cs
  | _, [], name, n, h => by
    rw [show stepsWithin _ [] = [] by simp [stepsWithin]] at h
    cases h
    simp [canonicalFrom]
  | 0, _ :: _, _, _, h => by cases h
  | bound + 1, c :: cs, name, n, h => by
    unfold stepsWithin at h
    split at h
    · next rest hmark =>
      rw [canonicalFrom_mark hmark, canonicalFrom_plainPart]
      dsimp only at h
      split at h
      · cases h
      · have hrest := toList_of_nameAlong bound h
        rw [hrest]
        simp [Slot.suffix]
    · split at h
      · next text rest hpart =>
        obtain ⟨after, hopen, hclose⟩ := Option.bind_eq_some_iff.mp hpart
        have hc : c = '[' ∧ cs = after := by
          unfold afterBracket? at hopen
          split at hopen
          · next heq =>
            cases hopen
            exact List.cons.inj heq
          · cases hopen
        obtain ⟨rfl, rfl⟩ := hc
        unfold Memory.nameAlong at h
        split at h
        · next s hslot =>
          have hrest := toList_of_nameAlong bound h
          have hbracket : canonicalFrom none ('[' :: cs) = canonicalFrom (some []) cs := by
            simp [canonicalFrom]
          rw [hrest, hbracket, canonicalFrom_bracket hclose, suffix_of_slotOf hslot]
          simp
        · cases h
      · cases h

/-- What the steps of a path spell is its canonical form. -/
theorem canonical_of_nameAlong {path n : String}
    (h : Memory.nameAlong (parse path).1 (parse path).2 = some n) : n = canonical path := by
  have hroot : (parse path).1.toList = (plainPart path.toList).1 := String.toList_ofList
  have hn := toList_of_nameAlong _ h
  rw [hroot, ← canonicalFrom_plainPart] at hn
  rw [canonical, ← hn, String.ofList_toList]

theorem nameAlong_slots (h : ∀ s ∈ slots, s.Plain) (name : String) :
    Memory.nameAlong name (slots.map Slot.step) = some (written name slots) := by
  induction slots generalizing name with
  | nil => rfl
  | cons s slots ih =>
    have ih := ih (fun s' hs' => h s' (List.mem_cons_of_mem s hs')) (name ++ s.suffix)
    have hs := h s (List.mem_cons_self ..)
    cases hstep : s.step with
    | member m =>
      cases s with
      | member m' =>
        cases hstep
        exact ih
      | element i => cases hstep
      | anyElement => cases hstep
    | index text =>
      rw [List.map_cons, hstep, Memory.nameAlong, Slot.slotOf_step hs hstep]
      exact ih
    | broken => cases s <;> cases hstep

theorem canonical_written (hroot : Plain root.toList)
    (hslots : ∀ s ∈ slots, s.Plain) : canonical (written root slots) = written root slots := by
  refine (canonical_of_nameAlong ?_).symm
  rw [parse_written hroot hslots]
  exact nameAlong_slots hslots root

end Path

end Footprint
