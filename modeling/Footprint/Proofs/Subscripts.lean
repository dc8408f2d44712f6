import Footprint.Proofs.Initialisers.Constant

/-!
# Subscripts

The element that a subscript picks is found by text: the first token of the index
is put between brackets, and the path is read again.

So the elements of literals are right for decimal literals without a suffix, and
for octal ones with a value below eight.  Other octal literals are read as decimal
ones, and hexadecimal literals and those with a suffix pick no element.  Any other
index stands for all elements, unless its first token is all digits.

The scan for pointer parameters that are used as arrays reads the same texts as
numbers, and stops at one that it cannot read.
-/

namespace Footprint

open Text Memory

open StraightLine (IsName)

/-! ## Integer literals -/

/-- How a literal is written. -/
inductive Base where
  | decimal
  | octal
  | hexadecimal
deriving DecidableEq

namespace Base

/-- The radix of the digits. -/
def radix : Base → Nat
  | decimal => 10
  | octal => 8
  | hexadecimal => 16

/-- The digits. -/
def digits : Base → List Char
  | decimal => "0123456789".toList
  | octal => "01234567".toList
  | hexadecimal => "0123456789abcdefABCDEF".toList

/-- What may stand before the digits. -/
def leads : Base → List (List Char)
  | decimal => [[]]
  | octal => [['0']]
  | hexadecimal => [['0', 'x'], ['0', 'X']]

end Base

/-- The value of a digit. -/
def digitValue (c : Char) : Nat :=
  if c.toNat < 65 then c.toNat - 48 else if c.toNat < 97 then c.toNat - 55 else c.toNat - 87

/-- The number that digits write. -/
def numberOf (radix : Nat) (cs : List Char) : Nat :=
  cs.foldl (fun n c => radix * n + digitValue c) 0

/-- An integer literal. -/
structure Literal where
  base : Base
  lead : List Char
  digits : List Char
  suffix : List Char
  lead_mem : lead ∈ base.leads
  digits_mem : ∀ c ∈ digits, c ∈ base.digits
  suffix_mem : ∀ c ∈ suffix, c ∈ ['u', 'U', 'l', 'L']
  some_digits : base ≠ .octal → digits ≠ []
  no_zero : base = .decimal → digits.head? ≠ some '0'

namespace Literal

variable (l : Literal)

/-- The characters of the literal. -/
def chars : List Char := l.lead ++ l.digits ++ l.suffix

/-- The token of the literal. -/
def text : String := String.ofList l.chars

/-- The value of the literal. -/
def value : Nat := numberOf l.base.radix l.digits

/-- The literal is written with few enough decimal digits and nothing else. -/
structure IsNumber : Prop where
  base : l.base ≠ .hexadecimal
  suffix : l.suffix = []
  short : l.chars.length ≤ maxDigits

/-- The literal is such a number, and the number is its value. -/
structure IsPlain : Prop extends IsNumber l where
  octal : l.base = .octal → l.value < 8

end Literal

section Numbers

variable {cs : List Char}

/-- The characters of a text are looked at, not all that there are. -/
theorem forall_of_all {P : Char → Prop} [DecidablePred P] (h : (cs.all fun c => P c) = true) :
    ∀ c ∈ cs, P c := by
  simpa using h

/-- What is read as a number is digits and low lines. -/
theorem digitValues?_mem : ∀ {ds : List Nat}, digitValues? cs = some ds →
    ∀ c ∈ cs, c = '_' ∨ (decimalValue? c).isSome = true := by
  fun_induction digitValues? cs with
  | case1 => exact fun h => by cases h
  | case2 c =>
    intro ds h d hd
    obtain ⟨v, hv, _⟩ := Option.map_eq_some_iff.mp h
    rw [List.mem_singleton.mp hd, hv]
    exact .inr rfl
  | case3 c rest ih =>
    intro ds h d hd
    obtain ⟨v, hv, h⟩ := Option.bind_eq_some_iff.mp h
    obtain ⟨vs, hvs, _⟩ := Option.bind_eq_some_iff.mp h
    rcases List.mem_cons.mp hd with rfl | hd
    · exact .inr (by rw [hv]; rfl)
    · rcases List.mem_cons.mp hd with rfl | hd
      · exact .inl rfl
      · exact ih hvs d hd
  | case4 c rest _ _ ih =>
    intro ds h d hd
    obtain ⟨v, hv, h⟩ := Option.bind_eq_some_iff.mp h
    obtain ⟨vs, hvs, _⟩ := Option.bind_eq_some_iff.mp h
    rcases List.mem_cons.mp hd with rfl | hd
    · exact .inr (by rw [hv]; rfl)
    · exact ih hvs d hd

theorem numberOf_append (r : Nat) (cs : List Char) (c : Char) :
    numberOf r (cs ++ [c]) = r * numberOf r cs + digitValue c := by
  simp [numberOf]

theorem digitValue_lt_eight {c : Char} (h : c ∈ Base.octal.digits) : digitValue c < 8 := by
  exact forall_of_all (P := fun c => digitValue c < 8) (by decide) c h

theorem numberOf_le (h : ∀ c ∈ cs, c ∈ Base.octal.digits) : numberOf 8 cs ≤ numberOf 10 cs := by
  induction cs using List.reverseRecOn with
  | nil => exact Nat.le_refl _
  | append_singleton cs c ih =>
    have ih := ih fun d hd => h d (List.mem_append_left _ hd)
    rw [numberOf_append, numberOf_append]
    omega

/-- Octal digits write the same number in both bases only if it is below eight. -/
theorem numberOf_octal_eq_iff (h : ∀ c ∈ cs, c ∈ Base.octal.digits) :
    numberOf 10 cs = numberOf 8 cs ↔ numberOf 8 cs < 8 := by
  induction cs using List.reverseRecOn with
  | nil => decide
  | append_singleton cs c ih =>
    have hcs : ∀ d ∈ cs, d ∈ Base.octal.digits := fun d hd => h d (List.mem_append_left _ hd)
    have hc := digitValue_lt_eight (h c (List.mem_append_right _ (List.mem_singleton_self c)))
    have hle := numberOf_le hcs
    have ih := ih hcs
    rw [numberOf_append, numberOf_append]
    omega

theorem isDigit_of_mem {b : Base} (hb : b ≠ .hexadecimal) {c : Char} (h : c ∈ b.digits) :
    c.isDigit = true := by
  cases b with
  | decimal => exact forall_of_all (P := fun c => c.isDigit = true) (by decide) c h
  | octal => exact forall_of_all (P := fun c => c.isDigit = true) (by decide) c h
  | hexadecimal => exact absurd rfl hb

theorem numberOf_eq (h : ∀ c ∈ cs, c.isDigit = true) :
    numberOf 10 cs = Nat.ofDigitChars 10 cs 0 := by
  unfold numberOf Nat.ofDigitChars
  refine List.foldl_ext _ _ _ fun n c hc => ?_
  have hrange : 48 ≤ c.toNat ∧ c.toNat ≤ 57 := Char.isDigit_iff_toNat.mp (h c hc)
  rw [digitValue, if_pos (by omega)]
  rfl

end Numbers

/-! ## Literals as texts -/

/-- The character has no meaning of its own in paths and numbers. -/
def IsMute (c : Char) : Prop :=
  isBlank c = false ∧ c ∉ [']', '?', '_', '-', '+']

instance (c : Char) : Decidable (IsMute c) := inferInstanceAs (Decidable (_ ∧ _))

namespace Literal

variable {l : Literal}

theorem isMute_chars : ∀ c ∈ l.chars, IsMute c := by
  intro c hc
  have hleads : ∀ b : Base, ∀ c ∈ b.leads.flatten, IsMute c := by
    intro b
    refine forall_of_all ?_
    cases b <;> decide
  have hdigits : ∀ b : Base, ∀ c ∈ b.digits, IsMute c := by
    intro b
    refine forall_of_all ?_
    cases b <;> decide
  have hsuffix : ∀ c ∈ ['u', 'U', 'l', 'L'], IsMute c := forall_of_all (by decide)
  rcases List.mem_append.mp hc with hc | hc
  · rcases List.mem_append.mp hc with hc | hc
    · exact hleads _ c (List.mem_flatten_of_mem l.lead_mem hc)
    · exact hdigits _ c (l.digits_mem c hc)
  · exact hsuffix c (l.suffix_mem c hc)

theorem chars_ne_nil : l.chars ≠ [] := by
  intro h
  have h : (l.lead = [] ∧ l.digits = []) ∧ l.suffix = [] := by
    rwa [chars, List.append_eq_nil_iff, List.append_eq_nil_iff] at h
  have hlead := l.lead_mem
  rw [h.1.1] at hlead
  cases hb : l.base with
  | decimal => exact l.some_digits (by rw [hb]; decide) h.1.2
  | octal =>
    rw [hb] at hlead
    exact absurd hlead (by decide)
  | hexadecimal =>
    rw [hb] at hlead
    exact absurd hlead (by decide)

theorem isDigit_chars (hb : l.base ≠ .hexadecimal) (hs : l.suffix = []) :
    ∀ c ∈ l.chars, c.isDigit = true := by
  intro c hc
  have hleads : ∀ c ∈ l.base.leads.flatten, c.isDigit = true := by
    refine forall_of_all ?_
    cases hbase : l.base with
    | decimal => decide
    | octal => decide
    | hexadecimal => exact absurd hbase hb
  rw [chars, hs, List.append_nil] at hc
  rcases List.mem_append.mp hc with hc | hc
  · exact hleads c (List.mem_flatten_of_mem l.lead_mem hc)
  · exact isDigit_of_mem hb (l.digits_mem c hc)

/-- A hexadecimal literal, and one with a suffix, has a character that is no digit. -/
theorem exists_letter (h : l.base = .hexadecimal ∨ l.suffix ≠ []) :
    ∃ c ∈ l.chars, isDigit c = false := by
  rcases h with h | h
  · have hlead := l.lead_mem
    rw [h] at hlead
    have hx : isDigit 'x' = false ∧ isDigit 'X' = false := by decide +kernel
    have hlead : l.lead = ['0', 'x'] ∨ l.lead = ['0', 'X'] := by simpa [Base.leads] using hlead
    rcases hlead with hlead | hlead
    · exact ⟨'x', by simp [chars, hlead], hx.1⟩
    · exact ⟨'X', by simp [chars, hlead], hx.2⟩
  · obtain ⟨c, cs, hcs⟩ := List.exists_cons_of_ne_nil h
    have hall : ∀ c ∈ ['u', 'U', 'l', 'L'], isDigit c = false :=
      forall_of_all (by decide +kernel)
    have hc : c ∈ l.suffix := by rw [hcs]; exact List.mem_cons_self ..
    exact ⟨c, List.mem_append_right _ hc, hall c (l.suffix_mem c hc)⟩

theorem isUnsigned_chars : ∀ c ∈ l.chars, c ≠ '-' ∧ c ≠ '+' := by
  intro c hc
  have hmute := (isMute_chars c hc).2
  constructor
  · rintro rfl
    exact hmute (by decide)
  · rintro rfl
    exact hmute (by decide)

theorem trim_chars : trim l.chars = l.chars :=
  trim_of_not_blank fun c hc => (isMute_chars c hc).1

theorem numberOf_chars (h : l.IsNumber) : numberOf 10 l.chars = numberOf 10 l.digits := by
  have hlead := l.lead_mem
  cases hb : l.base with
  | decimal =>
    rw [hb] at hlead
    rw [chars, h.suffix, List.mem_singleton.mp hlead]
    simp
  | octal =>
    rw [hb] at hlead
    rw [chars, h.suffix, List.mem_singleton.mp hlead]
    simp [numberOf, digitValue]
  | hexadecimal => exact absurd hb h.base

/-- A literal that is a number is read as its value if it is plain. -/
theorem numberOf_chars_eq_iff (h : l.IsNumber) : numberOf 10 l.chars = l.value ↔ l.IsPlain := by
  rw [numberOf_chars h]
  cases hb : l.base with
  | decimal =>
    have hvalue : l.value = numberOf 10 l.digits := by rw [value, hb]; rfl
    exact ⟨fun _ => ⟨h, fun ho => absurd (hb.symm.trans ho) (by decide)⟩, fun _ => hvalue.symm⟩
  | octal =>
    have hvalue : l.value = numberOf 8 l.digits := by rw [value, hb]; rfl
    rw [hvalue, numberOf_octal_eq_iff (hb ▸ l.digits_mem)]
    exact ⟨fun hlt => ⟨h, fun _ => hvalue ▸ hlt⟩, fun hp => hvalue ▸ hp.octal hb⟩
  | hexadecimal => exact absurd hb h.base

theorem isNumber_or (l : Literal) :
    l.IsNumber ∨ (l.base = .hexadecimal ∨ l.suffix ≠ []) ∨
      l.base ≠ .hexadecimal ∧ l.suffix = [] ∧ maxDigits < l.chars.length := by
  by_cases hb : l.base = .hexadecimal
  · exact .inr (.inl (.inl hb))
  · by_cases hs : l.suffix = []
    · by_cases hlong : maxDigits < l.chars.length
      · exact .inr (.inr ⟨hb, hs, hlong⟩)
      · exact .inl ⟨hb, hs, Nat.not_lt.mp hlong⟩
    · exact .inr (.inl (.inr hs))

theorem readInt_text (h : l.IsNumber) : readInt l.text = .ok (numberOf 10 l.chars : Int) := by
  have hdigits := isDigit_chars h.base h.suffix
  rw [text, readInt_of_isDigit hdigits chars_ne_nil, if_neg (Nat.not_lt.mpr h.short),
    numberOf_eq hdigits]

/-- A literal can be read as a number only if it is written as one. -/
theorem readInt_text_iff : (∃ i, readInt l.text = .ok i) ↔ l.IsNumber := by
  refine ⟨?_, fun h => ⟨_, readInt_text h⟩⟩
  rintro ⟨i, hread⟩
  rcases l.isNumber_or with h | h | ⟨hb, hs, hlong⟩
  · exact h
  · obtain ⟨c, hc, hdigit⟩ := exists_letter h
    rw [text, readInt_ofList (fun c hc => (isMute_chars c hc).1)
      isUnsigned_chars] at hread
    cases hvalues : digitValues? l.chars with
    | none =>
      rw [hvalues] at hread
      cases hread
    | some ds =>
      have hmem := digitValues?_mem hvalues c hc
      rcases hmem with rfl | hmem
      · exact absurd (isMute_chars '_' hc).2 (by decide)
      · rw [isDigit, hmem] at hdigit
        cases hdigit
  · rw [text, readInt_of_isDigit (isDigit_chars hb hs) chars_ne_nil, if_pos hlong] at hread
    cases hread

theorem allDigits_text (hb : l.base ≠ .hexadecimal) (hs : l.suffix = []) :
    allDigits l.text = true := by
  have hdigit : ∀ c ∈ l.chars, isDigit c = true := by
    intro c hc
    rw [isDigit, decimalValue?_of_isDigit (isDigit_chars hb hs c hc)]
    rfl
  simpa [allDigits, text, chars_ne_nil] using hdigit

/-- A literal that is a number picks the element of the decimal number.  Others pick none. -/
theorem slotOf_text_iff {s : Slot} : slotOf l.text = .ok (some s) ↔
    l.IsNumber ∧ s = .element (numberOf 10 l.chars) := by
  have hquestion : l.text ≠ "?" := by
    intro h
    have hchars : l.chars = ['?'] := by simpa [text] using congrArg String.toList h
    exact absurd (isMute_chars '?' (by rw [hchars]; exact List.mem_cons_self ..)).2 (by decide)
  rw [slotOf, if_neg hquestion]
  rcases l.isNumber_or with h | h | ⟨hb, hs, hlong⟩
  · rw [if_pos (allDigits_text h.base h.suffix), readDigits, readInt_text h]
    simp [Except.map, h, eq_comm]
  · obtain ⟨c, hc, hdigit⟩ := exists_letter h
    have hnot : ¬ allDigits l.text = true := by
      intro hall
      rw [allDigits, Bool.and_eq_true, List.all_eq_true] at hall
      rw [hall.2 c (by simpa [text] using hc)] at hdigit
      cases hdigit
    rw [if_neg hnot]
    refine ⟨fun hok => ?_, fun hok => ?_⟩
    · cases hok
    · rcases h with h | h
      · exact absurd h hok.1.base
      · exact absurd hok.1.suffix h
  · rw [if_pos (allDigits_text hb hs), readDigits, text,
      readInt_of_isDigit (isDigit_chars hb hs) chars_ne_nil, if_pos hlong]
    refine ⟨fun hok => ?_, fun hok => ?_⟩
    · cases hok
    · exact absurd hok.1.short (Nat.not_le.mpr hlong)

end Literal

/-! ## Elements of arrays -/

namespace Memory

variable {T : TypeTable} {m m' : Memory} {x text : String} {a c : Nat} {id : VarId}

theorem path_plain (hx : ∀ c ∈ x.toList, c ≠ '.' ∧ c ≠ '[' ∧ c ≠ '-') : Path.Plain x.toList where
  point h := (hx '.' h).1 rfl
  bracket h := (hx '[' h).2.1 rfl
  arrow h := (hx '-' (h.subset (List.mem_cons_self ..))).2.2 rfl

/-- A name with a text in brackets after it is one step from the name. -/
theorem parse_subscript (hx : Path.Plain x.toList) (htext : ']' ∉ text.toList) :
    Path.parse (x ++ "[" ++ text ++ "]") =
      (x, [.index (String.ofList (trim text.toList))]) := by
  have hlist : (x ++ "[" ++ text ++ "]").toList =
      x.toList ++ '[' :: (text.toList ++ ']' :: []) := by simp
  have hopens : Path.Opens ('[' :: (text.toList ++ ']' :: [])) := Or.inr rfl
  rw [Path.parse, hlist, Path.plainPart_plain hx hopens]
  dsimp only
  rw [Path.steps, List.length_cons, Path.stepsWithin_bracket _ htext, String.ofList_toList]
  simp [Path.stepsWithin]

/-- What a subscript leads to has the name of an element, or the name that was looked up. -/
theorem nameAt?_of_subscript (hl : Linked none m) (hx : Path.Plain x.toList)
    (htext : ']' ∉ text.toList) (h : resolve T (x ++ "[" ++ text ++ "]") m = .ok (some c) m') :
    m.address? (x ++ "[" ++ text ++ "]") = some c ∧
        m'.nameAt? c = some (x ++ "[" ++ text ++ "]") ∨
      ∃ s, slotOf (String.ofList (trim text.toList)) = .ok (some s) ∧
        m'.nameAt? c = some (x ++ s.suffix) := by
  obtain ⟨hcompletes, hfound⟩ := (resolve_completes (admits_all T) _ hl).value _ _ h
  obtain ⟨hsome, hknown | ⟨_, halong⟩⟩ := hfound c rfl
  · exact .inl ⟨hknown, (hcompletes.changes.after hl).grows.name _ _ (hl.name _ c hknown)⟩
  · rw [parse_subscript hx htext] at halong
    dsimp only at halong
    rw [← halong] at hsome ⊢
    unfold nameAlong at hsome ⊢
    split at hsome
    · next s hs => exact .inr ⟨s, hs, rfl⟩
    · cases hsome

/-- Where names lead to their addresses, a subscript leads to the element that its text picks. -/
theorem Rooted.nameAt?_of_subscript (hr : m.Rooted) (hx : Path.Plain x.toList)
    (htext : ']' ∉ text.toList) (h : resolve T (x ++ "[" ++ text ++ "]") m = .ok (some c) m') :
    ∃ s, slotOf (String.ofList (trim text.toList)) = .ok (some s) ∧
      m'.nameAt? c = some (x ++ s.suffix) := by
  rcases Memory.nameAt?_of_subscript hr.linked hx htext h with ⟨hknown, hname⟩ | hfound
  · obtain ⟨root, slots, hreach⟩ := hr.named _ c hknown
    have hparse := Path.parse_written hreach.plainRoot hreach.plainSlots
    rw [← hreach.written, parse_subscript hx htext] at hparse
    obtain ⟨rfl, hslots⟩ := Prod.mk.inj hparse
    obtain ⟨s, rfl, hstep⟩ := List.map_eq_singleton_iff.mp hslots.symm
    refine ⟨s, Slot.slotOf_step (hreach.plainSlots s (List.mem_cons_self ..)) hstep, ?_⟩
    rw [hname, hreach.written]
    rfl
  · exact hfound

/-- Where names lead to their addresses, a subscript of an unknown name leads nowhere. -/
theorem Rooted.resolve_subscript (hr : m.Rooted) (T : TypeTable) (hx : Path.Plain x.toList)
    (htext : ']' ∉ text.toList) (hnone : m.address? x = none) :
    resolve T (x ++ "[" ++ text ++ "]") m = .ok none m := by
  have hpath : m.address? (x ++ "[" ++ text ++ "]") = none := by
    refine Option.eq_none_iff_forall_ne_some.mpr fun c hc => ?_
    obtain ⟨root, slots, hreach⟩ := hr.named _ c hc
    have hparse := Path.parse_written hreach.plainRoot hreach.plainSlots
    rw [← hreach.written, parse_subscript hx htext] at hparse
    obtain ⟨r, _, hroot, _⟩ := hreach.start
    rw [← (Prod.mk.inj hparse).1, hnone] at hroot
    cases hroot
  have hempty : ¬ (x ++ "[" ++ text ++ "]").isEmpty = true := by simp
  unfold resolve
  rw [if_neg hempty]
  refine (bind_of_ok rfl).trans ?_
  rw [hpath]
  dsimp only
  rw [parse_subscript hx htext]
  dsimp only
  split
  · rfl
  · refine (bind_of_ok rfl).trans ?_
    rw [hnone]
    rfl

/-- A subscript leads somewhere, if the element that its text picks can be laid out. -/
theorem exists_of_subscript (hl : Linked none m) (hne : x ≠ "") (hat : m.At x a id)
    (hx : Path.Plain x.toList) (htext : ']' ∉ text.toList) {s : Slot}
    (hs : slotOf (String.ofList (trim text.toList)) = .ok (some s))
    (helement : element T a x s m = .ok (some c) m') :
    ∃ c' m'', resolve T (x ++ "[" ++ text ++ "]") m = .ok (some c') m'' := by
  have hpath : x ++ "[" ++ text ++ "]" ≠ "" := by simp [String.append_eq_empty_iff]
  cases hknown : m.address? (x ++ "[" ++ text ++ "]") with
  | some c' => exact ⟨c', m, resolve_known T hpath hknown⟩
  | none =>
    have hroot : ¬ x.isEmpty = true := by simpa using hne
    have hempty : ¬ (x ++ "[" ++ text ++ "]").isEmpty = true := by simp
    have hfollow : resolve T (x ++ "[" ++ text ++ "]") m =
        follow T a [.index (String.ofList (trim text.toList))] m := by
      unfold resolve
      rw [if_neg hempty]
      refine (bind_of_ok rfl).trans ?_
      rw [hknown]
      dsimp only
      rw [parse_subscript hx htext]
      dsimp only
      rw [if_neg hroot]
      refine (bind_of_ok rfl).trans ?_
      rw [show m.address? x = some a from hat.address]
    obtain ⟨b, hb, rfl⟩ := hat.exists_block
    have hvariable := variableAt_ok hl hb
    have hslot : (orFault (slotOf (String.ofList (trim text.toList))) : MemM (Option Slot)) m =
        .ok (some s) m := by
      rw [hs]
      rfl
    rw [hfollow]
    unfold follow
    cases hpart : (m.varOf b.var).parts.get? s with
    | some c' =>
      refine ⟨c', m, (bind_of_ok hvariable).trans ((bind_of_ok hslot).trans ?_)⟩
      dsimp only
      rw [hpart]
      rfl
    | none =>
      refine ⟨c, m', (bind_of_ok hvariable).trans ((bind_of_ok hslot).trans ?_)⟩
      dsimp only
      rw [hpart, hat.name hl]
      exact bind_of_ok helement

end Memory

theorem Slot.suffix_inj {s s' : Slot} (hs : s.IsElement) (hs' : s'.IsElement)
    (h : s.suffix = s'.suffix) : s = s' := by
  have hmark := toString_ne_question
  have hcut : ∀ {t u : String}, "[" ++ t ++ "]" = "[" ++ u ++ "]" → t = u := by
    intro t u h
    have h := congrArg String.toList h
    exact String.toList_inj.mp (by simpa using h)
  cases s with
  | member => exact hs.elim
  | element i =>
    cases s' with
    | member => exact hs'.elim
    | element j => rw [toString_inj (hcut h)]
    | anyElement => exact absurd (hcut (u := "?") h) (hmark i)
  | anyElement =>
    cases s' with
    | member => exact hs'.elim
    | element j => exact absurd (hcut (t := "?") h).symm (hmark j)
    | anyElement => rfl

namespace Walk

open Node (Denotes)

variable {s : Scope} {w : Walk} {x : String} {index n : Node} {a : Nat} {id : VarId}

/-- No pointer has the name. -/
structure Unpointed (w : Walk) (n : String) : Prop where
  block : ∀ a b, w.memory.address? n = some a → w.memory.block? a = some b →
    (w.memory.varOf b.var).isPointer = false
  key : w.pointers.contains n = false

theorem unpointed_iff (w : Walk) (n : String) : w.Unpointed n ↔
    (∀ a ∈ w.memory.address? n, ∀ b ∈ w.memory.block? a,
      (w.memory.varOf b.var).isPointer = false) ∧ w.pointers.contains n = false :=
  ⟨fun h => ⟨fun a ha b => h.block a b ha, h.key⟩, fun h => ⟨fun a b ha => h.1 a ha b, h.2⟩⟩

instance (w : Walk) (n : String) : Decidable (w.Unpointed n) :=
  decidable_of_iff _ (unpointed_iff w n).symm

/-- In the body of a function the name means no pointer, neither a global one nor one of the
function.  Names lead to their addresses. -/
structure ArrayIn (s : Scope) (x : String) (w : Walk) : Prop where
  rooted : w.memory.Rooted
  scope : IsName s.name
  name : IsName x
  global : w.Unpointed x
  own : w.Unpointed (ownedName s.name x)

/-- The full name that a name in a body means.  A global name is taken before one of the function,
which may be a local variable or a parameter. -/
def fullName (s : Scope) (w : Walk) (x : String) : String :=
  if (w.memory.address? x).isSome then x else ownedName s.name x

theorem fullName_cases (s : Scope) (w : Walk) (x : String) :
    fullName s w x = x ∨
      fullName s w x = ownedName s.name x ∧ w.memory.address? x = none := by
  unfold fullName
  split
  · exact .inl rfl
  · next h => exact .inr ⟨rfl, by simpa using h⟩

theorem Unpointed.pointerNamed (h : w.Unpointed x) (hl : Linked none w.memory) (hne : x ≠ "")
    (hplain : ∀ c ∈ x.toList, c ≠ '.' ∧ c ≠ '[' ∧ c ≠ '-') :
    pointerNamed s x w = .ok none w := by
  cases ha : w.memory.address? x with
  | none => exact bind_of_ok (onMemory_ok (resolve_unknown s.types hne hplain ha))
  | some a =>
    obtain ⟨b, hb, _⟩ := Option.map_eq_some_iff.mp (hl.name x a ha)
    refine (bind_of_ok (onMemory_ok (resolve_known s.types hne ha))).trans ?_
    refine (bind_of_ok (onMemory_ok (variableAt_ok hl hb))).trans ?_
    simp only [h.block a b ha hb]
    rfl

theorem ArrayIn.plain (h : ArrayIn s x w) : Path.Plain (fullName s w x).toList := by
  rcases fullName_cases s w x with he | ⟨he, _⟩
  · rw [he]
    exact path_plain h.name.plain
  · rw [he]
    exact path_plain (StraightLine.ownedName_plain h.scope h.name)

theorem ArrayIn.ne_empty (h : ArrayIn s x w) : fullName s w x ≠ "" := by
  rcases fullName_cases s w x with he | ⟨he, _⟩
  · rw [he]
    exact h.name.1
  · rw [he]
    exact StraightLine.ownedName_ne_empty _ _

theorem ArrayIn.pointedName? (h : ArrayIn s x w) : pointedName? s x w = .ok none w := by
  have hown := h.own.pointerNamed (s := s) h.rooted.linked (StraightLine.ownedName_ne_empty _ _)
    (StraightLine.ownedName_plain h.scope h.name)
  have hglobal := h.global.pointerNamed (s := s) h.rooted.linked h.name.1 h.name.plain
  have hkey : pointerKey s x w = .ok none w :=
    StraightLine.pointerKey_none h.name.1 hown hglobal ⟨h.own.key, h.global.key⟩
  have htarget : targetOfName s (some x) w = .ok none w := bind_of_ok hkey
  exact bind_of_ok htarget

/-- The tree is a subscript of the array.  The name of the array may stand in parentheses and casts,
and no other names lead to it. -/
inductive Subscript (w : Walk) (x : String) (index : Node) : Node → Prop
  | mk {i : NodeInfo} {c : Node} {cs : List Node} {d : Option Node} {whole : Option String} :
      i.kind = .subscript →
      Denotes (fun _ _ _ => False) (fun _ => False) x whole c w.memory w.memory →
      Subscript w x index (.mk i (c :: index :: cs) d)

/-- The address that an access expression is resolved to in a body. -/
def accessed (s : Scope) (n : Node) : WalkM (Option Int) := do addressIn? s (← accessName s n)

/-- The expression is resolved to the element of the array. -/
def Picks (s : Scope) (n : Node) (w : Walk) (x : String) (slot : Slot) : Prop :=
  ∃ (c : Nat) (w' : Walk), accessed s n w = .ok (some (c : Int)) w' ∧
    w'.memory.nameAt? c = some (x ++ slot.suffix)

/-- The text that is put between the brackets. -/
def indexText (index : Node) : String := index.integerText?.getD "?"

theorem accessName_subscript (h : ArrayIn s x w) (hn : Subscript w x index n) :
    accessName s n w = .ok (some (x ++ "[" ++ indexText index ++ "]")) w := by
  cases hn with
  | @mk i c cs d whole hkind hc =>
    have hc : Denotes (Global s w.pointers) (fun _ => False) x whole c w.memory w.memory :=
      hc.mono fun _ _ _ h => h.elim
    have helement : elementName s x index w = .ok (x ++ "[" ++ indexText index ++ "]") w :=
      bind_of_ok h.pointedName?
    unfold accessName
    simp only [hkind]
    refine (bind_of_ok (accessName_denotes h.rooted.linked hc).1).trans ?_
    rw [hc.filter]
    exact bind_of_ok helement

theorem ownedName_subscript (f x text : String) :
    ownedName f (x ++ "[" ++ text ++ "]") = ownedName f x ++ "[" ++ text ++ "]" := by
  simp only [ownedName, String.append_assoc]

/-- The address of a subscript is looked up under the full name of the array.  If that is a global
one without such an element, it is looked up as one of the function. -/
theorem accessed_subscript (h : ArrayIn s x w) (hn : Subscript w x index n)
    (htext : ']' ∉ (indexText index).toList) {c : Int} {w' : Walk}
    (hrun : accessed s n w = .ok (some c) w') : ∃ a : Nat, c = a ∧
      (resolve s.types (fullName s w x ++ "[" ++ indexText index ++ "]") w.memory =
          .ok (some a) w'.memory ∨
        fullName s w x = x ∧ ∃ m, Linked none m ∧
          resolve s.types (ownedName s.name x ++ "[" ++ indexText index ++ "]") m =
            .ok (some a) w'.memory) := by
  have hpath : (some (x ++ "[" ++ indexText index ++ "]")).filter (!·.isEmpty) =
      some (x ++ "[" ++ indexText index ++ "]") := by simp
  have hrun := (bind_of_ok (accessName_subscript h hn)).symm.trans hrun
  unfold addressIn? at hrun
  rw [hpath] at hrun
  obtain ⟨found, w₁, hin, hrun⟩ := exists_of_bind hrun
  obtain ⟨global, w₂, hglobal, hin⟩ := exists_of_bind hin
  obtain ⟨m₂, hresolve, rfl⟩ := exists_of_onMemory hglobal
  have hunknown := h.rooted.resolve_subscript s.types (path_plain h.name.plain) htext
  cases global with
  | some a =>
    cases hin
    cases hrun
    refine ⟨a, rfl, .inl ?_⟩
    rcases fullName_cases s w x with he | ⟨_, hnone⟩
    · rw [he]
      exact hresolve
    · cases (hunknown hnone).symm.trans hresolve
  | none =>
    obtain ⟨m₃, hown, rfl⟩ := exists_of_onMemory hin
    cases found with
    | none => cases hrun
    | some a =>
      cases hrun
      rw [ownedName_subscript] at hown
      refine ⟨a, rfl, ?_⟩
      rcases fullName_cases s w x with he | ⟨he, hnone⟩
      · exact .inr ⟨he, m₂, ((changes_resolve h.rooted.linked hresolve).after
          h.rooted.linked).linked, hown⟩
      · cases (hunknown hnone).symm.trans hresolve
        rw [he]
        exact .inl hown

/-- What is found under the full name is the address of the subscript. -/
theorem accessed_of_resolve (h : ArrayIn s x w) (hn : Subscript w x index n)
    (htext : ']' ∉ (indexText index).toList) {c : Nat} {m : Memory}
    (hresolve : resolve s.types (fullName s w x ++ "[" ++ indexText index ++ "]") w.memory =
      .ok (some c) m) : accessed s n w = .ok (some (c : Int)) { w with memory := m } := by
  refine (bind_of_ok (accessName_subscript h hn)).trans ?_
  rcases fullName_cases s w x with he | ⟨he, hnone⟩
  · rw [he] at hresolve
    exact addressIn_resolve (by simp [String.append_eq_empty_iff]) hresolve
  · have hpath : (some (x ++ "[" ++ indexText index ++ "]")).filter (!·.isEmpty) =
        some (x ++ "[" ++ indexText index ++ "]") := by simp
    have hglobal := h.rooted.resolve_subscript s.types (path_plain h.name.plain) htext hnone
    rw [he, ← ownedName_subscript] at hresolve
    have haddress : addressIn s (x ++ "[" ++ indexText index ++ "]") w =
        .ok (some c) { w with memory := m } :=
      (bind_of_ok (onMemory_ok hglobal)).trans (onMemory_ok hresolve)
    unfold addressIn?
    rw [hpath]
    exact bind_of_ok haddress

variable {slot : Slot}

/-- An element that a subscript is resolved to is the one that its text picks. -/
theorem Picks.slotOf (hp : Picks s n w (fullName s w x) slot) (h : ArrayIn s x w)
    (hn : Subscript w x index n) (htext : ']' ∉ (indexText index).toList)
    (hslot : slot.IsElement) :
    slotOf (String.ofList (trim (indexText index).toList)) = .ok (some slot) := by
  obtain ⟨c, w', hrun, hname⟩ := hp
  obtain ⟨b, hb, hfull | ⟨he, m, hl, hown⟩⟩ := accessed_subscript h hn htext hrun
  · cases hb
    obtain ⟨slot', hslot', hname'⟩ := h.rooted.nameAt?_of_subscript h.plain htext hfull
    rw [hname] at hname'
    have hsuffix : slot.suffix.toList = slot'.suffix.toList := by
      simpa using congrArg String.toList (Option.some.inj hname')
    rw [Slot.suffix_inj hslot (isElement_of_slotOf hslot') (String.toList_inj.mp hsuffix)]
    exact hslot'
  · -- a name of the function does not start as that of the array
    cases hb
    have hplain := path_plain (StraightLine.ownedName_plain h.scope h.name)
    obtain ⟨rest, hrest⟩ : ∃ rest, w'.memory.nameAt? c = some (ownedName s.name x ++ rest) := by
      rcases nameAt?_of_subscript hl hplain htext hown with ⟨_, hn⟩ | ⟨slot', _, hn⟩
      · exact ⟨"[" ++ indexText index ++ "]", by rw [hn]; simp only [String.append_assoc]⟩
      · exact ⟨slot'.suffix, hn⟩
    rw [hname, he] at hrest
    have hlist := congrArg String.toList (Option.some.inj hrest)
    obtain ⟨d, ds, hds⟩ := List.exists_cons_of_ne_nil (l := x.toList) (by simpa using h.name.1)
    simp only [String.toList_append, StraightLine.toList_ownedName, hds, List.cons_append,
      List.cons.injEq] at hlist
    exact absurd (hds ▸ List.mem_cons_self .. : d ∈ x.toList)
      fun hd => h.name.2 d hd (by rw [hlist.1]; decide)

/-- A subscript is resolved to the element that its text picks, if that can be laid out. -/
theorem picks_of_slotOf (h : ArrayIn s x w) (hat : w.memory.At (fullName s w x) a id)
    (hn : Subscript w x index n) (htext : ']' ∉ (indexText index).toList)
    (hslot : slotOf (String.ofList (trim (indexText index).toList)) = .ok (some slot))
    {c : Nat} {m : Memory}
    (hlays : element s.types a (fullName s w x) slot w.memory = .ok (some c) m) :
    Picks s n w (fullName s w x) slot := by
  obtain ⟨c', m', hresolve⟩ := exists_of_subscript h.rooted.linked h.ne_empty hat h.plain htext
    hslot hlays
  refine ⟨c', { w with memory := m' }, accessed_of_resolve h hn htext hresolve, ?_⟩
  obtain ⟨slot', hslot', hname⟩ := h.rooted.nameAt?_of_subscript h.plain htext hresolve
  cases hslot.symm.trans hslot'
  exact hname

/-- The text of an index that is no literal is that of its first token if this is all digits, and
a question mark if not. -/
theorem indexText_cases (hkind : index.kind ≠ .integer) :
    (∃ t, index.tokens.head? = some t ∧ allDigits t = true ∧ indexText index = t) ∨
      (∀ t, index.tokens.head? = some t → allDigits t = false) ∧ indexText index = "?" := by
  rw [indexText, Node.integerText?, if_neg hkind]
  cases hhead : index.tokens.head? with
  | none => exact .inr ⟨fun t ht => absurd ht (by simp), rfl⟩
  | some t =>
    cases hdigits : allDigits t with
    | true => exact .inl ⟨t, rfl, hdigits, by rw [Option.filter_some, if_pos hdigits]; rfl⟩
    | false =>
      refine .inr ⟨fun t' ht' => ?_, by rw [Option.filter_some, if_neg (by simp [hdigits])]; rfl⟩
      cases ht'
      exact hdigits

theorem isDigit_of_allDigits {t : String} (h : allDigits t = true) :
    ∀ c ∈ t.toList, isDigit c = true := by
  rw [allDigits, Bool.and_eq_true, List.all_eq_true] at h
  exact h.2

theorem indexText_bracket (hkind : index.kind ≠ .integer) : ']' ∉ (indexText index).toList := by
  rcases indexText_cases hkind with ⟨t, _, hdigits, htext⟩ | ⟨_, htext⟩
  · rw [htext]
    exact fun h => absurd (isDigit_of_allDigits hdigits _ h) (by decide +kernel)
  · rw [htext]
    decide

/-- An index that is no literal picks no element but the one for all, unless its first token is all
digits. -/
theorem slotOf_indexText_iff (hkind : index.kind ≠ .integer) :
    slotOf (String.ofList (trim (indexText index).toList)) = .ok (some .anyElement) ↔
      ∀ t, index.tokens.head? = some t → allDigits t = false := by
  rcases indexText_cases hkind with ⟨t, hhead, hdigits, htext⟩ | ⟨hnone, htext⟩
  · rw [htext]
    refine ⟨fun h => ?_, fun h => absurd (h t hhead) (by rw [hdigits]; decide)⟩
    have hquestion : String.ofList (trim t.toList) = "?" := by
      unfold slotOf at h
      split at h
      · assumption
      · split at h
        · cases hread : readDigits (String.ofList (trim t.toList)) with
          | ok i =>
            rw [hread] at h
            cases h
          | error e =>
            rw [hread] at h
            cases h
        · cases h
    have hmem : '?' ∈ trim t.toList := by
      have hlist := congrArg String.toList hquestion
      rw [String.toList_ofList] at hlist
      rw [hlist]
      decide
    have hmem : '?' ∈ t.toList :=
      (List.dropWhile_sublist _).subset (List.mem_reverse.mp
        ((List.dropWhile_sublist _).subset (List.mem_reverse.mp hmem)))
    exact absurd (isDigit_of_allDigits hdigits _ hmem) (by decide +kernel)
  · rw [htext]
    exact ⟨fun _ => hnone, fun _ => by decide +kernel⟩

end Walk

/-! ## Lengths of arrays behind parameters -/

/-- The tree is part of another one. -/
inductive Node.PartOf : Node → Node → Prop
  | itself {n : Node} : PartOf n n
  | child {n c : Node} {i : NodeInfo} {cs : List Node} {d : Option Node} : c ∈ cs → PartOf n c →
      PartOf n (.mk i cs d)

namespace Scan

variable {callee? : String → Option Function} {params : Params}

/-- The text that is read as a number at a node: that of an index of a parameter. -/
def indexText? (params : Params) (n : Node) : Option String :=
  match n.kind, n.children with
  | .subscript, base :: index :: _ =>
    ((base.baseName?.filter (!·.isEmpty)).bind params.get?).bind fun _ => index.integerText?
  | _, _ => none

/-- All texts that are read at a node are numbers. -/
def Reads (params : Params) (n : Node) : Prop :=
  ∀ text, indexText? params n = some text → ∃ i, readInt text = .ok i

/-- Whatever the memory, the step comes to an end if the condition holds, and to a fault if not. -/
def EndsIff (x : MemM Unit) (Q : Prop) : Prop := ∀ m, (∃ m', x m = .ok ⟨⟩ m') ↔ Q

section EndsIff

variable {x y : MemM Unit} {P Q : Prop}

theorem endsIff_of_true (hQ : Q) (h : EndsIff x True) : EndsIff x Q :=
  fun m => (h m).trans (iff_of_true trivial hQ)

theorem endsIff_pure : EndsIff (pure ⟨⟩) True := fun m => ⟨fun _ => trivial, fun _ => ⟨m, rfl⟩⟩

theorem endsIff_change (id : VarId) (f : Variable → Variable) : EndsIff (change id f) True :=
  fun _ => ⟨fun _ => trivial, fun _ => ⟨_, rfl⟩⟩

theorem EndsIff.get {f : Memory → MemM Unit} (h : ∀ m, EndsIff (f m) Q) :
    EndsIff (do f (← get)) Q :=
  fun m => h m m

theorem EndsIff.seq (hx : EndsIff x P) (hy : EndsIff y Q) : EndsIff (do x; y) (P ∧ Q) := by
  intro m
  constructor
  · rintro ⟨m', h⟩
    obtain ⟨_, m₁, hfirst, hrest⟩ := exists_of_bind h
    exact ⟨(hx m).mp ⟨m₁, hfirst⟩, (hy m₁).mp ⟨m', hrest⟩⟩
  · rintro ⟨hP, hQ⟩
    obtain ⟨m₁, hfirst⟩ := (hx m).mpr hP
    obtain ⟨m', hrest⟩ := (hy m₁).mpr hQ
    exact ⟨m', (bind_of_ok hfirst).trans hrest⟩

theorem EndsIff.orFault {r : Except Fault Int} {f : Int → MemM Unit}
    (h : ∀ i, EndsIff (f i) True) : EndsIff (do f (← orFault r)) (∃ i, r = .ok i) := by
  intro m
  cases r with
  | ok i => exact ((h i m).trans (iff_of_true trivial ⟨i, rfl⟩))
  | error e =>
    refine iff_of_false ?_ ?_
    · rintro ⟨m', h⟩
      cases h
    · rintro ⟨i, h⟩
      cases h

end EndsIff

theorem noteArgument_ends (callee : Function) (param : Label) (argument : Node) :
    EndsIff (noteArgument params callee param argument) True := by
  refine EndsIff.get fun m => ?_
  split
  · exact endsIff_pure
  · split
    · split
      · exact endsIff_change _ _
      · exact endsIff_pure
    · exact endsIff_pure

theorem notePassed_ends (callee : Function) :
    ∀ pairs : List (Label × Node), EndsIff (notePassed params callee pairs) True
  | [] => endsIff_pure
  | (param, argument) :: rest =>
    endsIff_of_true trivial fun m =>
      ((noteArgument_ends callee param argument).seq (notePassed_ends callee rest) m).trans
        and_self_iff

theorem noteCall_ends (n : Node) : EndsIff (noteCall callee? params n) True := by
  unfold noteCall
  dsimp only
  split
  · exact endsIff_pure
  · split
    · exact endsIff_pure
    · exact notePassed_ends _ _

theorem noteIndex_ends {base : String} {id : VarId} (hid : params.get? base = some id)
    (index : Node) :
    EndsIff (noteIndex params base index) (∀ text, index.integerText? = some text →
      ∃ i, readInt text = .ok i) := by
  unfold noteIndex
  rw [hid]
  refine fun m => ((endsIff_change id _).seq ?_ m).trans (and_iff_right trivial)
  cases index.integerText? with
  | none => exact endsIff_of_true (fun text h => absurd h (by simp)) endsIff_pure
  | some text =>
    refine fun m => ((EndsIff.orFault fun i => endsIff_change id (widen (i + 1))) m).trans ?_
    exact ⟨fun h _ ht => by cases ht; exact h, fun h => h text rfl⟩

/-- Noting a node comes to an end if the text at it is a number, and to a fault if not. -/
theorem noteNode_ends (n : Node) : EndsIff (noteNode callee? params n) (Reads params n) := by
  have hnone : indexText? params n = none → Reads params n := by
    intro hnone text htext
    rw [hnone] at htext
    cases htext
  unfold noteNode
  split
  · next base index rest hkind hcs =>
    have htext : indexText? params n = ((base.baseName?.filter (!·.isEmpty)).bind params.get?).bind
        fun _ => index.integerText? := by
      simp only [indexText?, hkind, hcs]
    cases hname : base.baseName?.filter (!·.isEmpty) with
    | none => exact endsIff_of_true (hnone (by rw [htext, hname]; rfl)) endsIff_pure
    | some name =>
      rw [hname, Option.bind_some] at htext
      cases hid : params.get? name with
      | none =>
        refine endsIff_of_true (hnone (by rw [htext, hid]; rfl)) ?_
        simp only [noteIndex, hid]
        exact endsIff_pure
      | some id =>
        rw [hid, Option.bind_some] at htext
        rw [Reads, htext]
        exact noteIndex_ends hid index
  · next hkind => exact endsIff_of_true (hnone (by simp only [indexText?, hkind])) (noteCall_ends n)
  · next _ hother =>
    refine endsIff_of_true (hnone ?_) endsIff_pure
    unfold indexText?
    split
    · next hkind hcs => exact (hother _ _ _ hkind hcs).elim
    · rfl

theorem partOf_mk {i : NodeInfo} {cs : List Node} {d : Option Node} {P : Node → Prop} :
    (∀ n, n.PartOf (.mk i cs d) → P n) ↔
      P (.mk i cs d) ∧ ∀ c ∈ cs, ∀ n, n.PartOf c → P n := by
  refine ⟨fun h => ⟨h _ .itself, fun c hc n hn => h n (.child hc hn)⟩, fun h n hn => ?_⟩
  cases hn with
  | itself => exact h.1
  | child hc hn => exact h.2 _ hc n hn

theorem forM_noteNode_ends (ns : List Node) :
    EndsIff (ns.forM (noteNode callee? params)) (∀ n ∈ ns, Reads params n) := by
  induction ns with
  | nil => exact endsIff_of_true (by simp) endsIff_pure
  | cons n ns ih =>
    rw [List.forall_mem_cons]
    exact (noteNode_ends n).seq ih

mutual

theorem mem_trees_iff {k : Node} (n : Node) : k ∈ n.trees ↔ k.PartOf n := by
  obtain ⟨i, cs, d⟩ := n
  rw [Node.trees, List.mem_cons, mem_treesEach_iff cs]
  constructor
  · rintro (rfl | ⟨c, hc, hk⟩)
    · exact .itself
    · exact .child hc hk
  · intro hk
    cases hk with
    | itself => exact .inl rfl
    | child hc hk => exact .inr ⟨_, hc, hk⟩

theorem mem_treesEach_iff {k : Node} (cs : List Node) :
    k ∈ Node.treesEach cs ↔ ∃ c ∈ cs, k.PartOf c := by
  cases cs with
  | nil => simp [Node.treesEach]
  | cons c cs => rw [Node.treesEach, List.mem_append, mem_trees_iff c, mem_treesEach_iff cs]; simp

end

/-- A scan comes to an end if all texts that it reads are numbers, and to a fault if not. -/
theorem scan_ends (n : Node) :
    EndsIff (scan callee? params n) (∀ d, d.PartOf n → Reads params d) := by
  rw [scan_eq_forM]
  exact fun m => (forM_noteNode_ends n.trees m).trans (forall_congr' fun d => by rw [mem_trees_iff])

end Scan

namespace Walk

variable {s : Scope} {w : Walk} {x : String} {a : Nat} {id : VarId}

/-- A literal index of a global array, a local one or a parameter picks the element of its value if
and only if it is a decimal literal without a suffix, or such an octal one with a value below eight.
In parentheses it picks no element.  Any other index stands for all elements if and only if its
first token is not all digits.  A scan over literal indices of parameters comes to an end if and
only if they are written with decimal digits alone. -/
theorem subscript_picks (h : ArrayIn s x w) (hat : w.memory.At (fullName s w x) a id) :
    (∀ (l : Literal) (index n : Node), index.kind = .integer → index.tokens.head? = some l.text →
      Subscript w x index n →
      (∃ c m, Memory.element s.types a (fullName s w x) (.element l.value) w.memory =
        .ok (some c) m) →
      (Picks s n w (fullName s w x) (.element l.value) ↔ l.IsPlain)) ∧
    (∀ index n : Node, index.kind ≠ .integer → Subscript w x index n →
      (∃ c m, Memory.element s.types a (fullName s w x) .anyElement w.memory = .ok (some c) m) →
      (Picks s n w (fullName s w x) .anyElement ↔
        ∀ t, index.tokens.head? = some t → Text.allDigits t = false)) ∧
    (∀ index n : Node, index.kind = .paren → index.tokens.head? = some "(" →
      Subscript w x index n → ∀ i, ¬ Picks s n w (fullName s w x) (.element i)) ∧
    ∀ (callee? : String → Option Function) (params : Scan.Params) (body : Node) (m : Memory),
      (∀ d, d.PartOf body → ∀ text, Scan.indexText? params d = some text →
        ∃ l : Literal, text = l.text) →
      ((∃ m', Scan.scan callee? params body m = .ok ⟨⟩ m') ↔
        ∀ d, d.PartOf body → ∀ l : Literal, Scan.indexText? params d = some l.text →
          l.IsNumber) := by
  refine ⟨fun l index n hkind hhead hn hlays => ?_, fun index n hkind hn hlays => ?_,
    fun index n hkind hhead hn i => ?_, fun callee? params body m hliteral => ?_⟩
  · have htext : indexText index = l.text := by
      rw [indexText, Node.integerText?, if_pos hkind, hhead]
      rfl
    have hbracket : ']' ∉ (indexText index).toList := by
      rw [htext, Literal.text, String.toList_ofList]
      exact fun hmem => (Literal.isMute_chars _ hmem).2 (by decide)
    obtain ⟨c, m, hlays⟩ := hlays
    have hpicks : Picks s n w (fullName s w x) (.element l.value) ↔
        Memory.slotOf l.text = .ok (some (.element l.value)) := by
      have htrim : String.ofList (Text.trim (indexText index).toList) = l.text := by
        rw [htext, Literal.text, String.toList_ofList, Literal.trim_chars]
      rw [← htrim]
      exact ⟨fun hp => hp.slotOf h hn hbracket trivial,
        fun hslot => picks_of_slotOf h hat hn hbracket hslot hlays⟩
    rw [hpicks, Literal.slotOf_text_iff, Slot.element.injEq]
    constructor
    · rintro ⟨hnumber, hvalue⟩
      exact (Literal.numberOf_chars_eq_iff hnumber).mp hvalue.symm
    · intro hplain
      exact ⟨hplain.toIsNumber, ((Literal.numberOf_chars_eq_iff hplain.toIsNumber).mpr hplain).symm⟩
  · obtain ⟨c, m, hlays⟩ := hlays
    rw [← slotOf_indexText_iff hkind]
    exact ⟨fun hp => hp.slotOf h hn (indexText_bracket hkind) trivial,
      fun hslot => picks_of_slotOf h hat hn (indexText_bracket hkind) hslot hlays⟩
  · intro hp
    have hinteger : index.kind ≠ .integer := by rw [hkind]; decide
    have hslot := hp.slotOf h hn (indexText_bracket hinteger) trivial
    have hany := (slotOf_indexText_iff hinteger).mpr fun t ht => by
      cases hhead.symm.trans ht
      decide +kernel
    cases hany.symm.trans hslot
  · rw [Scan.scan_ends body m]
    constructor
    · intro hreads d hd l htext
      exact Literal.readInt_text_iff.mp (hreads d hd l.text htext)
    · intro hnumber d hd text htext
      obtain ⟨l, rfl⟩ := hliteral d hd text htext
      exact Literal.readInt_text_iff.mpr (hnumber d hd l htext)

/-! ## Some literals -/

/-- The literal `3`. -/
def three : Literal :=
  ⟨.decimal, [], ['3'], [], by decide, forall_of_all (by decide), by simp, by simp, by simp⟩

/-- The literal `010`. -/
def octalTen : Literal :=
  ⟨.octal, ['0'], ['1', '0'], [], by decide, forall_of_all (by decide), by simp, by simp, by simp⟩

/-- The literal `0x3`. -/
def hexThree : Literal :=
  ⟨.hexadecimal, ['0', 'x'], ['3'], [], by decide, forall_of_all (by decide), by simp, by simp,
    by simp⟩

/-- The tree of a literal. -/
def literalNode (l : Literal) : Node := .mk { kind := .integer, tokens := [l.text] } [] none

theorem subscript_elementOf (w : Walk) {x : String} (hx : x ≠ "") (index : Node) :
    Subscript w x index (elementOf x index) :=
  .mk rfl (.var (i := (named x).info) rfl hx)

/-- The project with a global array `a`, once a function `f` with a local array `b` is analysed. -/
def rowRun? : Option Project :=
  (after? (Project.prepare (rowFile [declarationOf .varDecl "b" "int[16]" .array]) "/p" {})).bind
    fun p => after? (Project.analyse 0 p)

theorem subscript_picks_row :
    ∃ p, rowRun? = some p ∧ three.value = 3 ∧ octalTen.value = 8 ∧
      ArrayIn (linkScope p) "b" (entering p.analysis) ∧
      fullName (linkScope p) (entering p.analysis) "b" = "<f>b" ∧
      Picks (linkScope p) (elementOf "b" (literalNode three)) (entering p.analysis) "<f>b"
        (.element 3) ∧
      ¬ Picks (linkScope p) (elementOf "b" (literalNode octalTen)) (entering p.analysis) "<f>b"
        (.element 8) := by
  have hrun : (rowRun?.map fun p => (decide (p.types.structs.values = [] ∧
        p.analysis.memory.RootsApart ∧ (entering p.analysis).Unpointed "b" ∧
        (entering p.analysis).Unpointed "<f>b"),
      [p.analysis.memory.address? "b", p.analysis.memory.address? "<f>b",
        (p.analysis.memory.block? 3).map Block.var,
        (value? (Memory.element p.types 3 "<f>b" (.element 3) p.analysis.memory)).join,
        (value? (Memory.element p.types 3 "<f>b" (.element 8) p.analysis.memory)).join])) =
      some (true, [none, some 3, some 2, some 5, some 5]) := by
    decide +kernel
  obtain ⟨p, hp, hvalues⟩ := Option.map_eq_some_iff.mp hrun
  simp only [Prod.mk.injEq, decide_eq_true_eq, List.cons.injEq, and_true,
    Option.join_eq_some_iff] at hvalues
  obtain ⟨⟨hstructs, hroots, hglobal, howned⟩, hb, hown, hbVar, hthree, height⟩ := hvalues
  obtain ⟨_, hthree⟩ := exists_of_value? hthree
  obtain ⟨_, height⟩ := exists_of_value? height
  have htypes : p.types.MembersApart := by
    intro r hr
    rw [hstructs] at hr
    cases hr
  obtain ⟨p₀, hp₀, hanalysed⟩ := ok_of_bind hp
  have hreached : Project.Reached _ "p" p := .analysed (.read hp₀) (ok_of_after? hanalysed)
  have harray : ArrayIn (linkScope p) "b" (entering p.analysis) :=
    ⟨(hreached.built htypes).shaped.rooted hroots, (by decide : IsName "f"), by decide, hglobal,
      howned⟩
  have hfull : fullName (linkScope p) (entering p.analysis) "b" = "<f>b" :=
    if_neg (by rw [show (entering p.analysis).memory.address? "b" = none from hb]; decide)
  have hat : p.analysis.memory.At (fullName (linkScope p) (entering p.analysis) "b") 3 2 := by
    rw [hfull]
    exact ⟨hown, hbVar⟩
  have hpicks := (subscript_picks harray hat).1
  rw [hfull] at hpicks
  refine ⟨p, hp, by decide, by decide, harray, hfull, ?_, fun h => ?_⟩
  · exact (hpicks three _ _ rfl rfl (subscript_elementOf _ (by decide) _) ⟨_, _, hthree⟩).mpr
      ⟨⟨by decide, by decide, by decide⟩, by decide⟩
  · have hoctal := (hpicks octalTen _ _ rfl rfl (subscript_elementOf _ (by decide) _)
      ⟨_, _, height⟩).mp h
    exact absurd (hoctal.octal rfl) (by decide)

/-- The element of `a[010]` is taken to be `a[10]`, and `a[0x3]` is taken to be none. -/
theorem octal_element_misread :
    octalTen.text = "010" ∧ octalTen.value = 8 ∧ hexThree.text = "0x3" ∧ hexThree.value = 3 ∧
    ∃ p p' f q q' g,
      Project.prepare (rowFile [elementOf "a" (literalNode octalTen)]) "/p" {} = .ok ⟨⟩ p ∧
      Project.analyse 0 p = .ok ⟨⟩ p' ∧ p'.record? 0 = some f ∧ f.reads = ⟨["a[10]"]⟩ ∧
      Project.prepare (rowFile [elementOf "a" (literalNode hexThree)]) "/p" {} = .ok ⟨⟩ q ∧
      Project.analyse 0 q = .ok ⟨⟩ q' ∧ q'.record? 0 = some g ∧ g.reads = {} := by
  have hoctal : Project.firstRun? (rowFile [elementOf "a" (literalNode octalTen)])
      (fun _ _ f => f.reads) = some ⟨["a[10]"]⟩ := by decide +kernel
  have hhex : Project.firstRun? (rowFile [elementOf "a" (literalNode hexThree)])
      (fun _ _ f => f.reads) = some {} := by decide +kernel
  obtain ⟨p, p', f, hp, hp', hf, hreads⟩ := Project.exists_of_firstRun? hoctal
  obtain ⟨q, q', g, hq, hq', hg, hreads'⟩ := Project.exists_of_firstRun? hhex
  exact ⟨by decide, by decide, by decide, by decide, p, p', f, q, q', g, hp, hp', hf, hreads,
    hq, hq', hg, hreads'⟩

end Walk

end Footprint
