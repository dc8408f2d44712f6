import Footprint.Proofs.Memory.Growths
import Footprint.Proofs.Types.Agreement

/-!
# Addresses are stable

A text that has been looked up once is found at the same address from then on,
unless its root is laid out anew.

A lookup may lay out elements.  So it could make the text that it looks up a
name, and lead elsewhere when it is asked again.  It does not: an element that
is laid out had no names under it (`Charted`), and what is laid out with it has
the addresses of its names and is linked by parts (`Grown`).

Later steps leave the names and parts of a root alone, unless a root of the same
name is laid out (`Kept`).
-/

namespace Footprint.Memory

open Footprint.Path

variable {T : TypeTable} {P : Slot → Prop} {D : Prop} {m₀ m m' : Memory} {e n N R : String}

/-! ## Names of parts -/

/-- The name is the given one or that of a part. -/
def Below (e n : String) : Prop := n = e ∨ NamedUnder e n

theorem Below.suffix (h : Below e n) (s : Slot) : Below e (n ++ s.suffix) := by
  rcases h with rfl | h
  · exact .inr (under_suffix n s)
  · exact .inr (h.trans (under_suffix n s))

variable {s s₀ : Slot} {name path : String} {r : Option Nat}

/-- Only the first character of a plain slot opens one. -/
theorem exists_suffix (hs : s.Plain) : ∃ c cs, s.suffix.toList = c :: cs ∧ '.' ∉ cs ∧ '[' ∉ cs := by
  cases s with
  | member x => exact ⟨'.', x.toList, by simp [Slot.suffix], hs.2.point, hs.2.bracket⟩
  | element i =>
    have hdigits {c : Char} (hc : c.isDigit = false) (hne : c ≠ ']') :
        c ∉ (toString i ++ "]").toList := by
      intro h
      rw [String.toList_append] at h
      rcases List.mem_append.mp h with h | h
      · rw [Text.isDigit_of_mem_toString h] at hc
        cases hc
      · exact hne (List.mem_singleton.mp h)
    exact ⟨'[', (toString i ++ "]").toList, by simp [Slot.suffix], hdigits rfl (by decide),
      hdigits rfl (by decide)⟩
  | anyElement => exact ⟨'[', ['?', ']'], rfl, by decide, by decide⟩

/-- What a part is under, its whole is or is under. -/
theorem below_of_under_suffix (hs : s.Plain) (h : NamedUnder e (n ++ s.suffix)) : Below e n := by
  obtain ⟨c, rest, hlist, hc⟩ := h
  obtain ⟨d, ds, hsuffix, hpoint, hbracket⟩ := exists_suffix hs
  rw [String.toList_append] at hlist
  rcases List.append_eq_append_iff.mp hlist with ⟨as, he, htail⟩ | ⟨as, hn, htail⟩
  · -- the separator is in the suffix, and so its first character
    cases as with
    | nil => exact .inl (String.toList_inj.mp (by simpa using he.symm))
    | cons a as =>
      rw [hsuffix, List.cons_append, List.cons.injEq] at htail
      have hmem : c ∈ ds := htail.2 ▸ List.mem_append_right _ List.mem_cons_self
      rcases hc with rfl | rfl
      · exact absurd hmem hpoint
      · exact absurd hmem hbracket
  · cases as with
    | nil => exact .inl (String.toList_inj.mp (by simpa using hn))
    | cons a as =>
      cases (List.cons.inj htail).1
      exact .inr ⟨c, as, hn, hc⟩

theorem not_under_plain (hn : Plain n.toList) : ¬ NamedUnder e n := by
  rintro ⟨c, rest, hlist, rfl | rfl⟩
  · exact hn.point (hlist ▸ List.mem_append_right _ List.mem_cons_self)
  · exact hn.bracket (hlist ▸ List.mem_append_right _ List.mem_cons_self)

theorem suffix_inj {s' : Slot} (hs : s.Plain) (hs' : s'.Plain)
    (h : n ++ s.suffix = N ++ s'.suffix) : n = N ∧ s = s' := by
  have hunder := under_suffix n s
  rw [h] at hunder
  have hunder' := under_suffix N s'
  rw [← h] at hunder'
  have hname : n = N := by
    rcases below_of_under_suffix hs' hunder with heq | hlt
    · exact heq.symm
    · rcases below_of_under_suffix hs hunder' with heq | hlt'
      · exact heq
      · exact absurd (hlt.trans hlt') (not_under_self n)
  subst hname
  have hwritten : written "" [s] = written "" [s'] :=
    congrArg ("" ++ ·) (String.append_right_inj _ |>.mp h)
  have hslot := written_inj (by decide) (by decide) (by simpa using hs) (by simpa using hs')
    hwritten
  exact ⟨rfl, (List.cons.inj hslot.2).1⟩

theorem below_written (n : String) (slots : List Slot) : Below n (written n slots) := by
  induction slots using List.reverseRecOn with
  | nil => exact .inl rfl
  | append_singleton slots s ih =>
    rw [written_append]
    exact ih.suffix s

/-! ## Names with all that they are built on -/

/-- The name of a root is plain, and the name of a part is built on a name that is there. -/
structure Charted (m : Memory) : Prop extends Listed m where
  spelled : ∀ n, (m.address? n).isSome → Plain n.toList ∨
    ∃ N, ∃ s : Slot, s.Plain ∧ n = N ++ s.suffix ∧ (m.address? N).isSome

theorem charted_empty : Charted {} where
  toListed := listed_empty
  spelled _ h := nomatch h

/-- Names are built up slot by slot. -/
theorem Charted.induction {Q : String → Prop} (hm : m.Charted)
    (hroot : ∀ n, Plain n.toList → Q n)
    (hpart : ∀ N (s : Slot), s.Plain → (m.address? N).isSome → Q N → Q (N ++ s.suffix))
    (hn : (m.address? n).isSome) : Q n := by
  induction hlength : n.length using Nat.strong_induction_on generalizing n with
  | _ k ih =>
    rcases hm.spelled n hn with hplain | ⟨N, s, hs, rfl, hN⟩
    · exact hroot n hplain
    · refine hpart N s hs hN (ih N.length ?_ hN rfl)
      obtain ⟨c, cs, hsuffix, _⟩ := exists_suffix hs
      rw [← hlength, String.length_append, ← String.length_toList (s := s.suffix), hsuffix,
        List.length_cons]
      omega

/-- What a name is under has an address too. -/
theorem Charted.isSome_of_under (hm : m.Charted) (hn : (m.address? n).isSome)
    (h : NamedUnder e n) : (m.address? e).isSome := by
  refine hm.induction (Q := fun n => NamedUnder e n → (m.address? e).isSome) ?_ ?_ hn h
  · exact fun n hplain h => absurd h (not_under_plain hplain)
  · intro N s hs hN ih h
    rcases below_of_under_suffix hs h with rfl | h
    · exact hN
    · exact ih h

theorem Charted.isSome_of_below (hm : m.Charted) (hn : (m.address? n).isSome) (h : Below e n) :
    (m.address? e).isSome := by
  rcases h with rfl | h
  · exact hn
  · exact hm.isSome_of_under hn h

theorem Charted.exists_written (hm : m.Charted) (hn : (m.address? n).isSome) :
    ∃ root slots, Plain root.toList ∧ (∀ s ∈ slots, Slot.Plain s) ∧
      n = written root slots := by
  refine hm.induction (Q := fun n => ∃ root slots, Plain root.toList ∧
    (∀ s ∈ slots, Slot.Plain s) ∧ n = written root slots) ?_ ?_ hn
  · exact fun n hplain => ⟨n, [], hplain, fun _ hs => absurd hs List.not_mem_nil, rfl⟩
  · rintro _ s hs _ ⟨root, slots, hroot, hslots, rfl⟩
    refine ⟨root, slots ++ [s], hroot, fun s' hs' => ?_, (written_append ..).symm⟩
    rcases List.mem_append.mp hs' with hs' | hs'
    · exact hslots s' hs'
    · exact List.mem_singleton.mp hs' ▸ hs

theorem Charted.growth (hm : m.Charted) (h : Growth T P m m')
    (hnew : ∀ n, (m'.address? n).isSome → (m.address? n).isSome ∨ Plain n.toList ∨
      ∃ N, ∃ s : Slot, s.Plain ∧ n = N ++ s.suffix ∧ (m.address? N).isSome) : m'.Charted := by
  refine ⟨h.listed hm.toListed, fun n hn => ?_⟩
  have hspelled := (hnew n hn).elim (hm.spelled n) id
  exact hspelled.imp_right fun ⟨N, s, hs, hname, hN⟩ =>
    ⟨N, s, hs, hname, h.address?_isSome hm.linked hN⟩

theorem Charted.change (hm : m.Charted) (h : Change T Slot.Plain D m m') : m'.Charted := by
  refine hm.growth (.part (h.mono False.elim)) fun n hn => ?_
  rcases h.names hm.linked with ⟨hnames, _⟩ | ⟨a, b, s, hb, hs, _, _, hadded⟩
  · rw [address?, hnames] at hn
    exact .inl hn
  · rw [hadded.address] at hn
    split at hn
    · next heq => exact .inr (.inr ⟨_, s, hs, heq.symm, hm.named a _ (nameAt?_of_block hb)⟩)
    · exact .inl hn

theorem Charted.changes (hm : m.Charted) (h : Changes T Slot.Plain D m m') : m'.Charted := by
  induction h with
  | refl => exact hm
  | tail _ hchange ih => exact ih.change hchange

theorem RootsPlain.withRoot {id : VarId} (h : (m.withRoot id).RootsPlain) (hl : Linked none m) :
    Plain (m.varOf id).name.toList :=
  h m.next (m.rootBlock id) (block?_withRoot hl id) rfl

theorem Charted.addition (hm : m.Charted) (h : Growth T Slot.Plain m m') (hroots : m'.RootsPlain) :
    m'.Charted := by
  cases h with
  | noted h =>
    refine hm.growth (Growth.noted (T := T) (P := Slot.Plain) h) fun n hn => .inl ?_
    rwa [address?, h.names] at hn
  | @root id hid =>
    refine hm.growth (Growth.root (T := T) (P := Slot.Plain) hid) fun n hn => ?_
    rw [withRoot, address?_withBlock] at hn
    split at hn
    · next heq => exact .inr (.inl (heq ▸ hroots.withRoot hm.linked))
    · exact .inl hn
  | part h => exact hm.change h

theorem Charted.growths (hm : m.Charted) (h : Growths T Slot.Plain m m') (hroots : m'.RootsPlain) :
    m'.Charted := by
  induction h with
  | refl => exact hm
  | tail hgrowths hgrowth ih =>
    have hl := (Growths.after hgrowths hm.linked).linked
    exact (ih (hroots.before (hgrowth.keepsRoots hl))).addition hgrowth hroots

/-! ## What is laid out with an element -/

/-- Below the name every block has the address of its name, and every name is that of a part. -/
structure Grown (e : String) (m : Memory) : Prop where
  part : ∀ N s c, Below e N → Slot.Plain s → m.address? (N ++ s.suffix) = some c →
    ∃ a b, m.address? N = some a ∧ m.block? a = some b ∧ (m.varOf b.var).parts.get? s = some c
  current : ∀ a n, Below e n → m.nameAt? a = some n → m.address? n = some a

theorem Charted.grown (hm : m.Charted) (he : m.address? e = none) : Grown e m := by
  have habsent {n : String} (hn : (m.address? n).isSome) (h : Below e n) : False := by
    have hsome := hm.isSome_of_below hn h
    rw [he] at hsome
    cases hsome
  refine ⟨fun N s c hN _ hc => ?_, fun a n hn ha => ?_⟩
  · exact (habsent (by rw [hc]; rfl) (hN.suffix s)).elim
  · exact (habsent (hm.named a n ha) hn).elim

/-- Where the name is that of an element, no addition below it writes over a name. -/
theorem Grown.change (hg : Grown (N ++ s₀.suffix) m) (hs₀ : s₀.Plain) (helement : s₀.IsElement)
    (hl : Linked none m) (h : Change T Slot.Plain True m m') : Grown (N ++ s₀.suffix) m' := by
  have hparts {b : Block} {a c : Nat} {s : Slot} (hb : m.block? a = some b)
      (hc : (m.varOf b.var).parts.get? s = some c) : (m'.varOf b.var).parts.get? s = some c := by
    obtain ⟨c', hc', heq⟩ := (h.var (hl.var_lt hb)).part s c hc
    rw [hc', heq trivial]
  rcases h.names hl with ⟨hnames, hsame⟩ | ⟨a, b, s, hb, hs, hnone, habsent, hadded⟩
  · refine ⟨fun n s c hn hs hc => ?_, fun a n hn ha => ?_⟩
    · rw [address?, hnames] at hc ⊢
      obtain ⟨a, b, ha, hb, hpart⟩ := hg.part n s c hn hs hc
      exact ⟨a, b, ha, h.block hb, hparts hb hpart⟩
    · rw [address?, hnames]
      exact hg.current a n hn (hsame a ▸ ha)
  · have hname := nameAt?_of_block hb
    -- the name of the new part had no address
    have hnew : Below (N ++ s₀.suffix) ((m.varOf b.var).name ++ s.suffix) →
        m.address? ((m.varOf b.var).name ++ s.suffix) = none := by
      rintro (heq | hunder)
      · exact habsent ((suffix_inj hs hs₀ heq).2 ▸ helement)
      · have hbelow := below_of_under_suffix hs hunder
        refine Option.eq_none_iff_forall_ne_some.mpr fun c hc => ?_
        obtain ⟨a', b', ha', hb', hpart⟩ := hg.part _ s c hbelow hs hc
        cases ha'.symm.trans (hg.current a _ hbelow hname)
        cases hb'.symm.trans hb
        rw [hnone trivial] at hpart
        cases hpart
    have hkept {n : String} {c : Nat} (hn : Below (N ++ s₀.suffix) n) (hc : m.address? n = some c) :
        m'.address? n = some c := by
      rw [hadded.address, if_neg, hc]
      rintro rfl
      rw [hnew hn] at hc
      cases hc
    refine ⟨fun n s' c hn hs' hc => ?_, fun c n hn hc => ?_⟩
    · rw [hadded.address] at hc
      split at hc
      · next heq =>
        cases hc
        obtain ⟨rfl, rfl⟩ := suffix_inj hs hs' heq
        exact ⟨a, b, hkept hn (hg.current a _ hn hname), h.block hb, hadded.part⟩
      · obtain ⟨a', b', ha', hb', hpart⟩ := hg.part n s' c hn hs' hc
        exact ⟨a', b', hkept hn ha', h.block hb', hparts hb' hpart⟩
    · rcases hadded.nameAt? hl (h.after hl) hc with hold | ⟨rfl, rfl⟩
      · exact hkept hn (hg.current c n hn hold)
      · rw [hadded.address, if_pos rfl]

theorem Grown.changes (hg : Grown (N ++ s₀.suffix) m) (hs₀ : s₀.Plain) (helement : s₀.IsElement)
    (hl : Linked none m) (h : Changes T Slot.Plain True m m') : Grown (N ++ s₀.suffix) m' := by
  induction h with
  | refl => exact hg
  | tail hchanges hchange ih =>
    exact ih.change hs₀ helement (Changes.after hchanges hl).linked hchange

/-! ## Paths that are followed again -/

/-- How steps are followed.  They end at a part that is not there, or go on through parts, of which
some elements are laid out on the way. -/
inductive Followed (T : TypeTable) : List Step → Nat → Memory → Option Nat → Memory → Prop
  | here (a : Nat) (m : Memory) : Followed T [] a m (some a) m
  | lost {step : Step} {rest : List Step} {a : Nat} {b : Block} {m : Memory}
      (hb : m.block? a = some b) (hnone : ∀ s, Picks step s → (m.varOf b.var).parts.get? s = none)
      (hrun : follow T a (step :: rest) m = .ok none m) : Followed T (step :: rest) a m none m
  | part {step : Step} {rest : List Step} {a c : Nat} {b : Block} {m m' : Memory} {s : Slot}
      {r : Option Nat} (hb : m.block? a = some b) (hs : Picks step s)
      (hc : (m.varOf b.var).parts.get? s = some c) (h : Followed T rest c m r m') :
      Followed T (step :: rest) a m r m'
  | laid {step : Step} {rest : List Step} {a c : Nat} {b : Block} {m m' m'' : Memory} {s : Slot}
      {r : Option Nat} (hb : m.block? a = some b) (hs : Picks step s)
      (helement : s.IsElement ∧ s.Plain) (hchanges : Changes T Slot.Plain True m m')
      (hnames : (m.address? ((m.varOf b.var).name ++ s.suffix)).isSome → m'.names = m.names)
      (hc : (m'.varOf b.var).parts.get? s = some c) (h : Followed T rest c m' r m'') :
      Followed T (step :: rest) a m r m''

/-- An element that has an address under its name is only noted. -/
theorem element_names (hl : Linked none m) {a : Nat} {b : Block} (hb : m.block? a = some b)
    (h : (m.address? (name ++ s.suffix)).isSome) :
    Ends (element T a name s) m (fun _ m' => m'.names = m.names) fun _ _ => True := by
  obtain ⟨c, hc⟩ := Option.isSome_iff_exists.mp h
  refine Ends.bind_ok (variableAt_ok hl hb) ?_
  dsimp only
  split
  · exact Ends.pure rfl
  · split
    · exact Ends.pure rfl
    · refine Ends.bind (Ends.orFault (fun base _ => Ends.bind (Ends.get ?_)) fun _ _ => trivial)
      rw [hc]
      exact Ends.bind (Ends.modify (Ends.pure rfl))

/-- A lookup that ends follows its steps. -/
theorem followed (hT : T.MembersApart) :
    ∀ {steps : List Step} {m : Memory} {a : Nat} {name : String} {r : Option Nat} {m' : Memory},
      Linked none m → m.nameAt? a = some name → follow T a steps m = .ok r m' →
      Followed T steps a m r m'
  | [], m, a, _, _, _, _, _, hrun => by
    cases hrun
    exact .here a m
  | step :: rest, m, a, name, r, m', hl, ha, hrun => by
    obtain ⟨b, hb, rfl⟩ := Option.map_eq_some_iff.mp ha
    have hrun' := hrun
    rw [follow] at hrun
    rw [bind_of_ok (variableAt_ok hl hb)] at hrun
    cases step with
    | broken =>
      cases hrun
      exact .lost hb (fun _ h => h.elim) hrun'
    | member x =>
      dsimp only at hrun
      cases hc : (m.varOf b.var).parts.get? (.member x) with
      | some c =>
        rw [hc] at hrun
        exact .part hb rfl hc (followed hT hl (hl.part_name hc) hrun)
      | none =>
        rw [hc] at hrun
        cases hrun
        exact .lost hb (fun s hs => hs ▸ hc) hrun'
    | index text =>
      obtain ⟨slot, m₁, hslot, hrun⟩ := exists_of_bind hrun
      cases hread : slotOf text with
      | error e =>
        rw [hread] at hslot
        cases hslot
      | ok found =>
        rw [hread] at hslot
        cases hslot
        cases slot with
        | none =>
          cases hrun
          refine .lost hb (fun s hs => ?_) hrun'
          cases hread.symm.trans hs
        | some s =>
          dsimp only at hrun
          cases hpart : (m.varOf b.var).parts.get? s with
          | some c =>
            rw [hpart] at hrun
            exact .part hb hread hpart (followed hT hl (hl.part_name hpart) hrun)
          | none =>
            rw [hpart] at hrun
            obtain ⟨found, m₁, helement, hrun⟩ := exists_of_bind hrun
            have hs := And.intro (isElement_of_slotOf hread) ((admits_plain hT).index text s hread)
            obtain ⟨hcompletes, _, hfound, hsame⟩ := (elementWith_completes
              (allocate_laysPart (admits_plain hT)) hl hb hs.1 hs.2).value _ _ helement
            cases found with
            | none =>
              cases hrun
              cases hsame rfl
              refine .lost hb (fun s' hs' => ?_) hrun'
              cases hread.symm.trans hs'
              exact hpart
            | some c =>
              have hl₁ := (hcompletes.changes.after hl).linked
              have hc := hfound c rfl
              refine .laid hb hread hs hcompletes.changes
                (fun hsome => (element_names hl hb hsome).value _ _ helement) hc ?_
              exact (followed hT hl₁ (hl₁.part_name hc) hrun)

theorem picks_unique : Relator.RightUnique Picks := by
  intro step s s' h h'
  cases step with
  | member x => exact Eq.trans h (Eq.symm h')
  | index text =>
    cases Eq.trans (Eq.symm h) h'
    rfl
  | broken => exact h.elim

section Followed

variable {steps : List Step} {a : Nat} {r : Option Nat}

theorem Followed.changes (h : Followed T steps a m r m') : Changes T Slot.Plain True m m' := by
  induction h with
  | here => exact .refl
  | lost => exact .refl
  | part _ _ _ _ ih => exact ih
  | laid _ _ _ hchanges _ _ _ ih => exact hchanges.trans ih

theorem Changes.part (h : Changes T Slot.Plain True m m') (hl : Linked none m)
    {b : Block} {s : Slot}
    {c : Nat} (hb : m.block? a = some b) (hc : (m.varOf b.var).parts.get? s = some c) :
    (m'.varOf b.var).parts.get? s = some c := by
  obtain ⟨c', hc', heq⟩ := (Changes.var h hl (hl.var_lt hb)).part s c hc
  rw [hc', heq trivial]

/-- The same steps lead to the same place, through parts alone. -/
theorem Followed.again (h : Followed T steps a m r m') (hl : Linked none m) :
    (∀ c, r = some c → ∃ slots, List.Forall₂ Picks steps slots ∧ m'.along a slots = some c) ∧
      (r = none → follow T a steps m' = .ok none m') := by
  -- one more step, through a part of the memory at the end
  have hcons {step : Step} {rest : List Step} {a c : Nat} {b : Block} {m' : Memory} {s : Slot}
      {r : Option Nat} (hl : Linked none m') (hb : m'.block? a = some b) (hs : Picks step s)
      (hc : (m'.varOf b.var).parts.get? s = some c)
      (ih : (∀ c', r = some c' → ∃ slots, List.Forall₂ Picks rest slots ∧
        m'.along c slots = some c') ∧ (r = none → follow T c rest m' = .ok none m')) :
      (∀ c', r = some c' → ∃ slots, List.Forall₂ Picks (step :: rest) slots ∧
        m'.along a slots = some c') ∧
        (r = none → follow T a (step :: rest) m' = .ok none m') := by
    refine ⟨fun c' hr => ?_, fun hr => ?_⟩
    · obtain ⟨slots, hslots, halong⟩ := ih.1 c' hr
      exact ⟨s :: slots, .cons hs hslots, by
        rw [along, hb, Option.bind_some, hc, Option.bind_some, halong]⟩
    · exact (follow_part T rest (hl.lt_next_of_block hb).1 hb hs hc).trans (ih.2 hr)
  induction h with
  | here a m =>
    exact ⟨fun c hc => ⟨[], .nil, hc⟩, fun hr => absurd hr (Option.some_ne_none a)⟩
  | lost _ _ hrun =>
    exact ⟨fun c hr => absurd hr.symm (Option.some_ne_none c), fun _ => hrun⟩
  | part hb hs hc h ih =>
    exact hcons (Changes.after h.changes hl).linked (Changes.block h.changes hb) hs
      (Changes.part h.changes hl hb hc) (ih hl)
  | laid hb hs _ hchanges _ hc h ih =>
    have hl₁ := (Changes.after hchanges hl).linked
    have hb₁ := Changes.block hchanges hb
    exact hcons (Changes.after h.changes hl₁).linked (Changes.block h.changes hb₁) hs
      (Changes.part h.changes hl₁ hb₁ hc) (ih hl₁)

/-- Where steps lead that make their own path a name, this name leads too. -/
theorem Followed.named (h : Followed T steps a m r m') (hm : m.Charted) {slots : List Slot}
    (hsteps : steps = slots.map Slot.step) (hslots : ∀ s ∈ slots, s.Plain)
    (ha : m.nameAt? a = some N)
    (hstart : m.address? (written N slots) = none ∨ ∃ N₀, ∃ s₀ : Slot,
      (s₀.IsElement ∧ s₀.Plain) ∧ Below (N₀ ++ s₀.suffix) N ∧ Grown (N₀ ++ s₀.suffix) m)
    {c : Nat} (hc : m'.address? (written N slots) = some c) : r = some c := by
  induction h generalizing N slots with
  | here a m =>
    cases List.map_eq_nil_iff.mp hsteps.symm
    rcases hstart with hnone | ⟨_, _, _, hbelow, hg⟩
    · cases hnone.symm.trans hc
    · exact (hg.current a N hbelow ha).symm.trans hc
  | @lost step rest a b m hb hnone _ =>
    obtain ⟨s, slots, rfl, rfl, rfl⟩ := List.map_eq_cons_iff.mp hsteps.symm
    rcases hstart with habsent | ⟨_, _, _, hbelow, hg⟩
    · cases habsent.symm.trans hc
    · have hpart :=
        hm.isSome_of_below (Option.isSome_of_eq_some hc) (below_written (N ++ s.suffix) slots)
      obtain ⟨d, hd⟩ := Option.isSome_iff_exists.mp hpart
      obtain ⟨a', b', ha', hb', hpart⟩ := hg.part N s d hbelow (hslots s List.mem_cons_self) hd
      cases ha'.symm.trans (hg.current a N hbelow ha)
      cases hb'.symm.trans hb
      cases picks_step hslots with
      | cons hs _ =>
        rw [hnone s hs] at hpart
        cases hpart
  | @part step rest a d b m m' s r hb hs hd h ih =>
    obtain ⟨s', slots, rfl, rfl, rfl⟩ := List.map_eq_cons_iff.mp hsteps.symm
    cases picks_step hslots with
    | cons hs' _ =>
      cases picks_unique hs hs'
      have hname := hm.linked.part_name hd
      cases (nameAt?_of_block hb).symm.trans ha
      refine ih hm rfl (fun s hs => hslots s (List.mem_cons_of_mem _ hs)) hname ?_ hc
      exact hstart.imp_right fun ⟨N₀, s₀, hs₀, hbelow, hg⟩ => ⟨N₀, s₀, hs₀, hbelow.suffix _, hg⟩
  | @laid step rest a d b m m₁ m' s r hb hs helement hchanges hnames hd h ih =>
    obtain ⟨s', slots, rfl, rfl, rfl⟩ := List.map_eq_cons_iff.mp hsteps.symm
    cases picks_step hslots with
    | cons hs' _ =>
      cases picks_unique hs hs'
      cases (nameAt?_of_block hb).symm.trans ha
      have hm₁ := hm.changes hchanges
      have hname := hm₁.linked.part_name hd
      rw [congrArg Variable.name (Changes.var hchanges hm.linked (hm.linked.var_lt hb)).same]
        at hname
      refine ih hm₁ rfl (fun s hs => hslots s (List.mem_cons_of_mem _ hs)) hname ?_ hc
      rcases hstart with habsent | ⟨N₀, s₀, hs₀, hbelow, hg⟩
      · cases hchild : m.address? ((m.varOf b.var).name ++ s.suffix) with
        | none =>
          exact .inr ⟨_, s, helement, .inl rfl,
            (hm.grown hchild).changes helement.2 helement.1 hm.linked hchanges⟩
        | some c₀ =>
          rw [hchild] at hnames
          refine .inl ?_
          rw [address?, hnames rfl]
          exact habsent
      · exact .inr ⟨N₀, s₀, hs₀, hbelow.suffix _, hg.changes hs₀.2 hs₀.1 hm.linked hchanges⟩

end Followed

/-! ## What later steps leave alone -/

/-- Names below `R` have the addresses that they had, and variables of such names their parts. -/
structure Kept (m₀ : Memory) (R : String) (m : Memory) : Prop where
  vars : m₀.vars.size ≤ m.vars.size
  block : ∀ a b, m₀.block? a = some b → ∃ b', m.block? a = some b' ∧ b'.var = b.var
  name : ∀ n c, Below R n → m₀.address? n = some c → m.address? n = some c
  part : ∀ id s c, id < m₀.vars.size → Below R (m₀.varOf id).name →
    (m₀.varOf id).parts.get? s = some c → (m.varOf id).parts.get? s = some c

theorem Kept.refl (m : Memory) (R : String) : Kept m R m :=
  ⟨Nat.le_refl _, fun _ b hb => ⟨b, hb, rfl⟩, fun _ _ _ h => h, fun _ _ _ _ _ h => h⟩

theorem Kept.sameParts (h : Kept m₀ R m) (hs : SameParts m m') (hl : Linked none m) :
    Kept m₀ R m' where
  vars := Nat.le_trans h.vars (hs.after hl).grows.vars
  block a b hb := by
    obtain ⟨b', hb', hvar⟩ := h.block a b hb
    obtain ⟨b'', hb'', _, hvar'⟩ := hs.exists_block hb'
    exact ⟨b'', hb'', hvar'.trans hvar⟩
  name n c hn hc := by
    rw [address?, hs.names]
    exact h.name n c hn hc
  part id s c hid hn hc := by
    rw [hs.parts]
    exact h.part id s c hid hn hc

/-- What a name below a plain root is under is below this root too. -/
theorem Below.of_under (hR : Plain R.toList) (hn : Below R n) (h : NamedUnder e n) :
    Below R e := by
  rcases hn with rfl | ⟨c, rest, hlist, hc⟩
  · exact absurd h (not_under_plain hR)
  obtain ⟨d, rest', hlist', hd⟩ := h
  rw [hlist] at hlist'
  rcases List.append_eq_append_iff.mp hlist' with ⟨as, he, htail⟩ | ⟨as, hR', htail⟩
  · cases as with
    | nil => exact .inl (String.toList_inj.mp (by simpa using he))
    | cons a as =>
      cases (List.cons.inj htail).1
      exact .inr ⟨c, as, he, hc⟩
  · cases as with
    | nil => exact .inl (String.toList_inj.mp (by simpa using hR'.symm))
    | cons a as =>
      cases (List.cons.inj htail).1
      exact absurd ⟨d, as, hR', hd⟩ (not_under_plain hR)

/-- The name and those of its parts had no addresses below `R`. -/
def New (m₀ : Memory) (R name : String) : Prop :=
  ∀ n, Below R n → Below name n → m₀.address? n = none

theorem Kept.withBlock (h : Kept m₀ R m) (hn : New m₀ R name) (parent : Nat)
    (id : VarId) : Kept m₀ R (m.withBlock name parent id) where
  vars := h.vars
  block a b hb := by
    obtain ⟨b', hb', hvar⟩ := h.block a b hb
    exact ⟨b', block?_withBlock_of_some hb' name parent id, hvar⟩
  name n c hbelow hc := by
    rw [address?_withBlock, if_neg, h.name n c hbelow hc]
    rintro rfl
    rw [hn name hbelow (.inl rfl)] at hc
    cases hc
  part id s c hid hname hc := h.part id s c hid hname hc

/-- Additions below other names, and of elements that are not there, keep what is below `R`. -/
theorem spreads_kept (hm₀ : m₀.Charted) (hR : Plain R.toList) :
    Spreads (fun id => id < m₀.vars.size → ¬ Below R (m₀.varOf id).name) (New m₀ R) (Kept m₀ R)
      fun _ => Kept m₀ R where
  own hm hlt := absurd hlt (Nat.not_lt.mpr hm.vars)
  element {m start} hm habsent n hn hbelow := by
    refine Option.eq_none_iff_forall_ne_some.mpr fun c hc => ?_
    have hstart : Below R (start ++ "]") := by
      rcases hbelow with rfl | hunder
      · exact hn
      · exact hn.of_under hR hunder
    obtain ⟨d, hd⟩ := Option.isSome_iff_exists.mp
      (hm₀.isSome_of_below (Option.isSome_of_eq_some hc) hbelow)
    cases habsent.symm.trans (hm.name _ d hstart hd)
  member {name member} hname n hn hbelow := by
    refine hname n hn (.inr ?_)
    have hunder : NamedUnder name (name ++ "." ++ member) := by
      rw [String.append_assoc]
      exact under_suffix name (.member member)
    rcases hbelow with rfl | hbelow
    · exact hunder
    · exact hunder.trans hbelow
  part {m id s a} hm _ hfresh := by
    refine ⟨by simpa [setVar] using hm.vars, hm.block, hm.name, fun j s' c hj hname hc => ?_⟩
    have hold := hm.part j s' c hj hname hc
    rw [varOf_setVar]
    split
    · next heq =>
      obtain ⟨rfl, _⟩ := heq
      rw [Table.get?_set]
      split
      · next hs =>
        subst hs
        rcases hfresh with hnone | hown
        · cases hnone.symm.trans hold
        · exact absurd hname (hown hj)
      · exact hold
    · exact hold
  block {m name parent v} hm hname _ := by
    have hpush : Kept m₀ R { m with vars := m.vars.push v } := by
      refine ⟨by simpa using Nat.le_succ_of_le hm.vars, hm.block, hm.name, ?_⟩
      intro j s c hj hbelow hc
      rw [varOf_push, if_neg (Nat.ne_of_lt (Nat.lt_of_lt_of_le hj hm.vars))]
      exact hm.part j s c hj hbelow hc
    exact hpush.withBlock hname parent m.vars.size
  fault hm _ := hm

/-- The roots are plain, and those that came later have another name. -/
structure OthersOnly (m₀ : Memory) (R : String) (m : Memory) : Prop where
  plain : m.RootsPlain
  other : ∀ a b, m₀.next ≤ a → m.block? a = some b → b.parent = 0 → (m.varOf b.var).name ≠ R

theorem OthersOnly.before (h : OthersOnly m₀ R m') (hk : KeepsRoots m m') : OthersOnly m₀ R m where
  plain := h.plain.before hk
  other a b hle hb hparent := by
    obtain ⟨b', hb', hparent', hname⟩ := hk a b hb hparent
    exact hname ▸ h.other a b' hle hb' hparent'

/-- The memory comes after `m₁`, and has kept what is below `R` unless such a root was added. -/
structure Leaves (m₀ : Memory) (R : String) (m₁ m : Memory) : Prop where
  after : After m₁ m
  kept : OthersOnly m₀ R m → Kept m₀ R m

section Leaves

variable {m₁ : Memory}

theorem Leaves.sameParts (h : Leaves m₀ R m₁ m) (hs : SameParts m m') : Leaves m₀ R m₁ m' where
  after := h.after.trans (hs.after h.after.linked)
  kept hm' := (h.kept (hm'.before (hs.keepsRoots h.after.linked))).sameParts hs h.after.linked

/-- A step that adds parts, also to a new root.  It keeps what is below `R` if there is no new
root of this name. -/
theorem Leaves.of_changes {α : Type} {x : MemM α} {Q : α → Memory → Prop} (h : Leaves m₀ R m₁ m)
    (hafter : After m m') (hroots : KeepsRoots m m') (hx : Ends x m Q (Stops T P D m'))
    (hq : ∀ a m'', Q a m'' → Changes T P D m' m'')
    (hkept : OthersOnly m₀ R m' → Kept m₀ R m → Ends x m (fun _ => Kept m₀ R) fun _ => Kept m₀ R) :
    Ends x m (fun _ m'' => Leaves m₀ R m₁ m'' ∧ After m m'') fun e m'' =>
      (e = .endless → ¬ False) ∧ (e ≠ .endless → Leaves m₀ R m₁ m'') := by
  have hleaves {m'' : Memory} (hc : Changes T P D m' m'')
      (hrun : Kept m₀ R m → OthersOnly m₀ R m' → Kept m₀ R m'') :
      Leaves m₀ R m₁ m'' ∧ After m m'' := by
    have hafter' := hafter.trans (Changes.after hc hafter.linked)
    refine ⟨⟨h.after.trans hafter', fun hothers => ?_⟩, hafter'⟩
    have hothers' := hothers.before (Changes.keepsRoots hc hafter.linked)
    exact hrun (h.kept (hothers'.before hroots)) hothers'
  constructor
  · exact fun a m'' hrun => hleaves (hq a m'' (hx.value a m'' hrun)) fun hm hothers =>
      (hkept hothers hm).value a m'' hrun
  · exact fun e m'' hrun => ⟨fun _ hf => hf, fun hne =>
      (hleaves ((hx.fault e m'' hrun).changes hne) fun hm hothers =>
        (hkept hothers hm).fault e m'' hrun).1⟩

theorem building_leaves (hm₀ : m₀.Charted) (hR : Plain R.toList) (h₁ : After m₀ m₁) :
    Building T False Slot.IsElement m₁ (Leaves m₀ R m₁) where
  linked h := h.after.linked
  vars h := h.after.grows.vars
  setVar id _ h hname hparts := h.sameParts (sameParts_setVar _ id hname hparts)
  pointers h hs := h.sameParts hs.sameParts
  declare h hv := h.sameParts (sameParts_declare _ hv)
  root {m id} h hid := by
    have hl := h.after.linked
    have hgrows := (h₁.trans h.after).grows
    refine (h.of_changes ⟨hl.withRoot hid, grows_withRoot hl id⟩ (keepsRoots_withRoot m id)
      (allocate_root_completes (admits_all T) hl hid False.elim) (fun _ _ hr => hr.2.1.changes)
      fun hothers hm => ?_).mono (fun _ _ hr => hr.1) fun _ _ hr => hr
    -- the new root is none of the names below `R`
    have hne : (m.varOf id).name ≠ R :=
      hothers.other m.next (m.rootBlock id) hgrows.next (block?_withRoot hl id) rfl
    have hoff : ¬ Below R (m.varOf id).name := fun hb =>
      hb.elim hne (not_under_plain (hothers.plain.withRoot hl))
    have hnew : New m₀ R (m.varOf id).name := by
      rintro n hn (rfl | hunder)
      · exact absurd hn hoff
      · exact absurd (hn.of_under hR hunder) hoff
    refine ((spreads_kept hm₀ hR).allocate_given hm (hm.withBlock hnew 0 id) hnew (fun hlt => ?_)
      settled_of_keeps).mono (fun _ _ hr => hr.1) fun _ _ hr => hr
    rwa [← hgrows.var id hlt]
  element {m a name s} h ha hs := by
    have hl := h.after.linked
    obtain ⟨b, hb, rfl⟩ := Option.map_eq_some_iff.mp ha
    refine (h.of_changes (.refl hl) (.refl m)
      (elementWith_completes (allocate_laysPart (admits_all T)) hl hb hs trivial)
      (fun _ _ hr => hr.1.changes) fun _ hm => ?_).mono
      (fun _ _ hr => ⟨hr.1, hr.2.grows.name a _ ha⟩) fun _ _ hr => hr
    exact ((spreads_kept hm₀ hR).element_ends settled_of_keeps a _ hs hm).mono
      (fun _ _ hr => hr.1) fun _ _ hr => hr
  resolve name := by
    refine ⟨fun m h => ?_⟩
    have hl := h.after.linked
    refine (h.of_changes (.refl hl) (.refl m)
      (resolve_completes (admits_all T) name hl) (fun _ _ hr => hr.1.changes) fun _ hm => ?_).mono
      (fun _ _ hr => hr.1) fun _ _ hr => hr
    exact ((spreads_kept hm₀ hR).resolve_ends settled_of_keeps name hm).mono
      (fun _ _ hr => hr.1) fun _ _ hr => hr

end Leaves

/-! ## Runs -/

/-- A call leads from one memory to the other, where the members of structs are apart. -/
def Asks (m m' : Memory) : Prop :=
  ∃ T call, TypeTable.MembersApart T ∧ Call.Fits m call ∧ call.Short ∧ Leads (call.run T) m m'

/-- Calls lead from one memory to the other. -/
abbrev Later : Memory → Memory → Prop := Relation.ReflTransGen Asks

theorem Asks.growths (h : Asks m m') (hl : Linked none m) : ∃ T, Growths T Slot.Plain m m' := by
  obtain ⟨T, call, hT, hf, hs, hleads⟩ := h
  have hplain := admits_plain hT
  refine ⟨T, Call.growths ⟨hplain.any, hplain.index, hplain.member, False.elim⟩ hl hf ?_ hleads⟩
  exact call.elements_plain hs

theorem Later.charted (h : Later m m') (hm : m.Charted) (hroots : m'.RootsPlain) : m'.Charted := by
  have hboth : Linked none m' ∧ (m'.RootsPlain → m'.Charted) := by
    clear hroots
    induction h with
    | refl => exact ⟨hm.linked, fun _ => hm⟩
    | tail _ hasks ih =>
      obtain ⟨T, hgrowths⟩ := hasks.growths ih.1
      refine ⟨(Growths.after hgrowths ih.1).linked, fun hroots => ?_⟩
      exact (ih.2 (hroots.before (Growths.keepsRoots hgrowths ih.1))).growths hgrowths hroots
  exact hboth.2 hroots

theorem Built.later (h : Built m) : Later {} m := by
  induction h with
  | empty => exact .refl
  | call _ hT hf hs hleads ih => exact ih.tail ⟨_, _, hT, hf, hs, hleads⟩

theorem Later.leaves (h : Later m₀ m) (hm₀ : m₀.Charted) (hR : Plain R.toList) :
    Leaves m₀ R m₀ m := by
  induction h with
  | refl => exact ⟨.refl hm₀.linked, fun _ => .refl m₀ R⟩
  | tail _ hasks ih =>
    obtain ⟨T, call, _, hf, _, hleads⟩ := hasks
    have hlays := ((building_leaves (T := T) hm₀ hR ih.after).call call hf call.elements).lays _
      ⟨.refl ih.after.linked, ih.kept⟩
    have hleaves := hlays.leads hleads
    exact ⟨ih.after.trans hleaves.after, hleaves.kept⟩

/-! ## Lookups -/

/-- The root of a path is plain. -/
theorem plain_root (path : String) : Plain (parse path).1.toList := by
  have hplain (cs : List Char) : Plain (plainPart cs).1 := by
    induction cs with
    | nil => decide
    | cons c cs ih =>
      unfold plainPart
      split
      · exact (by decide : Plain [])
      · next hc =>
        simp only [Bool.or_eq_true, Bool.and_eq_true, decide_eq_true_eq, not_or, not_and] at hc
        refine ⟨?_, ?_, fun harrow => ?_⟩
        · exact fun h => (List.mem_cons.mp h).elim (fun he => hc.1.1 he.symm) ih.point
        · exact fun h => (List.mem_cons.mp h).elim (fun he => hc.1.2 he.symm) ih.bracket
        · rcases List.infix_cons_iff.mp harrow with hprefix | hinfix
          · obtain ⟨hdash, rest, hrest⟩ := List.cons_prefix_cons.mp hprefix
            refine hc.2 hdash.symm ?_
            rw [← plainPart_append cs, ← hrest]
            rfl
          · exact ih.arrow hinfix
  show Plain (String.ofList (plainPart path.toList).1).toList
  rw [String.toList_ofList]
  exact hplain _

/-- The memory leads from a text to an address without a change. -/
structure Finds (m : Memory) (path : String) (c : Nat) : Prop where
  text : path.isEmpty = false
  found : m.address? path = some c ∨ m.address? path = none ∧
    (parse path).1.isEmpty = false ∧ ∃ a slots, m.address? (parse path).1 = some a ∧
      List.Forall₂ Picks (parse path).2 slots ∧ m.along a slots = some c

theorem Finds.resolve {c : Nat} (h : m.Finds path c) (hl : Linked none m)
    (T : TypeTable) : resolve T path m = .ok (some c) m := by
  unfold Memory.resolve
  rw [h.text]
  refine (bind_of_ok rfl).trans ?_
  rcases h.found with hc | ⟨hnone, hroot, a, slots, ha, hslots, halong⟩
  · rw [hc]
    rfl
  · rw [hnone]
    dsimp only
    rw [hroot]
    refine (bind_of_ok rfl).trans ?_
    rw [ha]
    exact follow_along hl T m.names hslots halong

/-- Slots lead to a block that has the name they spell. -/
theorem along_name (hl : Linked none m) : ∀ {slots : List Slot} {a c : Nat} {name : String},
    m.nameAt? a = some name → m.along a slots = some c →
      m.nameAt? c = some (written name slots)
  | [], _, _, _, ha, h => by
    cases h
    exact ha
  | s :: slots, a, c, name, ha, h => by
    obtain ⟨d, hd, hrest⟩ := Option.bind_eq_some_iff.mp h
    obtain ⟨b, hb, hpart⟩ := Option.bind_eq_some_iff.mp hd
    cases (nameAt?_of_block hb).symm.trans ha
    have hname := along_name hl (hl.part_name hpart) hrest
    exact hname

theorem Kept.along (h : Kept m₀ R m) (hl : Linked none m₀) :
    ∀ {slots : List Slot} {a c : Nat} {name : String}, Below R name → m₀.nameAt? a = some name →
      m₀.along a slots = some c → m.along a slots = some c
  | [], _, _, _, _, _, hc => hc
  | s :: slots, a, c, name, hn, ha, hc => by
    obtain ⟨d, hd, hrest⟩ := Option.bind_eq_some_iff.mp hc
    obtain ⟨b, hb, hpart⟩ := Option.bind_eq_some_iff.mp hd
    cases (nameAt?_of_block hb).symm.trans ha
    obtain ⟨b', hb', hvar⟩ := h.block a b hb
    have hpart' := h.part b.var s d (hl.var_lt hb) hn hpart
    rw [Memory.along, hb', Option.bind_some, hvar, hpart', Option.bind_some]
    exact h.along hl (hn.suffix s) (hl.part_name hpart) hrest

/-- What is found is found as long as it is kept. -/
theorem Finds.kept {c : Nat} (h : m₀.Finds path c) (hm₀ : m₀.Charted)
    (hm : m.Charted) (hk : Kept m₀ (parse path).1 m) : m.Finds path c := by
  have hwritten {m : Memory} (hm : m.Charted) (hsome : (m.address? path).isSome) : ∃ slots,
      (∀ s ∈ slots, Slot.Plain s) ∧ path = written (parse path).1 slots ∧
      (parse path).2 = slots.map Slot.step := by
    obtain ⟨root, slots, hroot, hslots, heq⟩ := hm.exists_written hsome
    rw [heq, parse_written hroot hslots]
    exact ⟨slots, hslots, rfl, rfl⟩
  refine ⟨h.text, ?_⟩
  rcases h.found with hc | ⟨hnone, hroot, a, slots, ha, hslots, halong⟩
  · obtain ⟨slots, _, heq, _⟩ := hwritten hm₀ (Option.isSome_of_eq_some hc)
    have hbelow := below_written (parse path).1 slots
    rw [← heq] at hbelow
    exact .inl (hk.name _ c hbelow hc)
  · have hname := hm₀.linked.name _ a ha
    refine .inr ⟨?_, hroot, a, slots, hk.name _ a (.inl rfl) ha, hslots,
      hk.along hm₀.linked (.inl rfl) hname halong⟩
    -- a name that is found has the address of its block
    refine Option.eq_none_iff_forall_ne_some.mpr fun c' hc' => ?_
    obtain ⟨slots', hplain, heq, hsteps⟩ := hwritten hm (Option.isSome_of_eq_some hc')
    rw [hsteps] at hslots
    cases List.right_unique_forall₂' picks_unique hslots (picks_step hplain)
    have hlisted := hm₀.named c _ (along_name hm₀.linked hname halong)
    rw [← heq, hnone] at hlisted
    cases hlisted

/-- A lookup finds nothing, or a name, or follows the steps of a path. -/
theorem resolve_cases (hrun : resolve T path m = .ok r m') :
    r = none ∧ m' = m ∨ path.isEmpty = false ∧ (r = m.address? path ∧ m' = m ∨
      m.address? path = none ∧ (parse path).1.isEmpty = false ∧
        ∃ a, m.address? (parse path).1 = some a ∧
          follow T a (parse path).2 m = .ok r m') := by
  have hget : (get : MemM Memory) m = .ok m m := rfl
  unfold resolve at hrun
  cases htext : path.isEmpty with
  | true =>
    rw [htext] at hrun
    cases hrun
    exact .inl ⟨rfl, rfl⟩
  | false =>
    rw [htext, if_neg Bool.false_ne_true, bind_of_ok hget] at hrun
    cases hc : m.address? path with
    | some c =>
      rw [hc] at hrun
      cases hrun
      exact .inr ⟨rfl, .inl ⟨rfl, rfl⟩⟩
    | none =>
      rw [hc] at hrun
      dsimp only at hrun
      cases hroot : (parse path).1.isEmpty with
      | true =>
        rw [hroot] at hrun
        cases hrun
        exact .inl ⟨rfl, rfl⟩
      | false =>
        rw [hroot, if_neg Bool.false_ne_true, bind_of_ok hget] at hrun
        cases ha : m.address? (parse path).1 with
        | none =>
          rw [ha] at hrun
          cases hrun
          exact .inl ⟨rfl, rfl⟩
        | some a =>
          rw [ha] at hrun
          exact .inr ⟨rfl, .inr ⟨rfl, rfl, a, rfl, hrun⟩⟩

/-- A lookup that is made again gives the same answer and changes nothing. -/
theorem resolve_again (hm : m.Charted) (hT : T.MembersApart) (hrun : resolve T path m = .ok r m') :
    (∀ c, r = some c → m'.Finds path c) ∧ (r = none → resolve T path m' = .ok none m') := by
  rcases resolve_cases hrun with ⟨rfl, rfl⟩ | ⟨htext, ⟨rfl, rfl⟩ | ⟨hnone, hroot, a, ha, hfollow⟩⟩
  · exact ⟨fun c hr => absurd hr.symm (Option.some_ne_none c), fun _ => hrun⟩
  · exact ⟨fun c hc => ⟨htext, .inl hc⟩, fun hr => hr ▸ hrun⟩
  have hname := hm.linked.name _ a ha
  have hfollowed := followed hT hm.linked hname hfollow
  obtain ⟨halong, hagain⟩ := hfollowed.again hm.linked
  have hm' := hm.changes hfollowed.changes
  -- if the lookup has made its text a name, this name has the address that was found
  have hnamed {c : Nat} (hc : m'.address? path = some c) : r = some c := by
    obtain ⟨root, slots, hplain, hslots, heq⟩ := hm'.exists_written (Option.isSome_of_eq_some hc)
    have hparse : parse path = (root, slots.map Slot.step) := by
      rw [heq, parse_written hplain hslots]
    rw [hparse] at hname hfollowed
    rw [heq] at hc hnone
    exact hfollowed.named hm rfl hslots hname (.inl hnone) hc
  have hkept : Kept m (parse path).1 m' := ((spreads_kept hm (plain_root path)).follow_ends
    settled_of_keeps _ a (.refl m _)).value _ _ hfollow |>.1
  have ha' := hkept.name _ a (.inl rfl) ha
  refine ⟨fun c hr => ⟨htext, ?_⟩, fun hr => ?_⟩
  · cases hc : m'.address? path with
    | some c' => exact .inl ((hnamed hc).symm.trans hr)
    | none =>
      obtain ⟨slots, hslots, hc'⟩ := halong c hr
      exact .inr ⟨rfl, hroot, a, slots, ha', hslots, hc'⟩
  · have hnone' : m'.address? path = none := by
      refine Option.eq_none_iff_forall_ne_some.mpr fun c hc => ?_
      cases hr.symm.trans (hnamed hc)
    unfold resolve
    rw [htext]
    refine (bind_of_ok rfl).trans ?_
    rw [hnone']
    dsimp only
    rw [hroot]
    refine (bind_of_ok rfl).trans ?_
    rw [ha']
    exact hagain hr

/-- A lookup that is made again at once gives the same answer and changes nothing.  An address that
was found is found as long as no root of the same name is laid out anew. -/
theorem resolve_stable (h : Built m) (hroots : m.RootsPlain) (hT : T.MembersApart) {path : String}
    {r : Option Nat} (hrun : resolve T path m = .ok r m') :
    resolve T path m' = .ok r m' ∧
    ∀ c, r = some c → ∀ m'', Later m' m'' → OthersOnly m' (Path.parse path).1 m'' →
      ∀ T', resolve T' path m'' = .ok (some c) m'' := by
  have hm := Later.charted h.later charted_empty hroots
  obtain ⟨hfound, hagain⟩ := resolve_again hm hT hrun
  have hchanges := ((resolve_completes (admits_plain hT) path hm.linked).value _ _ hrun).1.changes
  have hm' := hm.changes hchanges
  constructor
  · cases r with
    | none => exact hagain rfl
    | some c => exact (hfound c rfl).resolve hm'.linked T
  · intro c hr m'' hlater hothers T'
    have hm'' := Later.charted hlater hm' hothers.plain
    have hkept := (hlater.leaves hm' (plain_root path)).kept hothers
    exact ((hfound c hr).kept hm' hm'' hkept).resolve hm''.linked T'

/-- The memory in which an element has been looked up. -/
def lookedUp : Memory := (Call.resolve "p->at[ 00 ]").after positions (positionMemory 5)

/-- An element is found again at once, and when it has been written. -/
theorem resolve_stable_positionMemory :
    resolve positions "p->at[ 00 ]" (positionMemory 5) = .ok (some 7) lookedUp ∧
    resolve positions "p->at[ 00 ]" lookedUp = .ok (some 7) lookedUp ∧
    Later lookedUp ((Call.write 7 "f").after positions lookedUp) ∧
    resolve positions "p->at[ 00 ]" ((Call.write 7 "f").after positions lookedUp) =
      .ok (some 7) ((Call.write 7 "f").after positions lookedUp) := by
  have hvalue : value? (resolve positions "p->at[ 00 ]" (positionMemory 5)) = some (some 7) := by
    decide +kernel
  obtain ⟨m', hrun⟩ := exists_of_value? hvalue
  have hcall : (Call.resolve "p->at[ 00 ]").run positions (positionMemory 5) = .ok ⟨⟩ m' :=
    bind_of_ok hrun
  have hm' : lookedUp = m' := Call.after_of_run hcall
  rw [← hm'] at hrun
  have hroots : (positionMemory 5).RootsApart := by decide +kernel
  obtain ⟨hagain, hlater⟩ := resolve_stable built_positionMemory hroots.plain
    membersApart_positions hrun
  have hleads : Leads ((Call.write 7 "f").run positions) lookedUp
      ((Call.write 7 "f").after positions lookedUp) := Call.leads_after (by decide +kernel)
  have hasks : Later lookedUp ((Call.write 7 "f").after positions lookedUp) :=
    .single ⟨positions, .write 7 "f", membersApart_positions, trivial, trivial, hleads⟩
  have hl := (Changes.after ((resolve_completes (admits_all positions) _
    built_positionMemory.shaped.after.linked).value _ _ hrun).1.changes
      built_positionMemory.shaped.after.linked).linked
  have hl' := ((Call.run_lays positions hl (.write 7 "f") trivial).leads hleads).linked
  have hapart : ((Call.write 7 "f").after positions lookedUp).RootsApart := by decide +kernel
  have hnext : ((Call.write 7 "f").after positions lookedUp).next = lookedUp.next := by
    decide +kernel
  have hothers : OthersOnly lookedUp (Path.parse "p->at[ 00 ]").1
      ((Call.write 7 "f").after positions lookedUp) := by
    refine ⟨hapart.plain, fun a b hle hb _ => ?_⟩
    have hlt := (hl'.lt_next_of_block hb).2
    rw [hnext] at hlt
    exact absurd hlt (Nat.not_lt.mpr hle)
  exact ⟨hrun, hagain, hasks, hlater 7 rfl _ hasks hothers positions⟩

/-- A struct with two members of one name. -/
def twins : TypeTable where
  structs := ⟨[
    ("struct pair",
      { name := "struct pair", memberTypes := ["int"], memberNames := ["y"] }),
    ("struct twice",
      { name := "struct twice", memberTypes := ["struct pair", "int"],
        memberNames := ["x", "x"] })]⟩

/-- The memory with an array of such structs. -/
def twinMemory : Memory :=
  [Call.declare { name := "e", type := "struct twice[5]", kind := .array },
    .allocateGlobals [0]].foldl (fun m (call : Call) => call.after twins m) {}

/-- The second member of the name takes the place of the first one, but the parts of the first one
have names.  So a lookup finds nothing at first, and then the name that it has made. -/
theorem resolve_twinMemory :
    value? (resolve twins "e[3].x.y" twinMemory) = some none ∧
    value? (resolve twins "e[3].x.y" ((Call.resolve "e[3].x.y").after twins twinMemory)) =
      some (some 8) := by
  decide +kernel

end Footprint.Memory
