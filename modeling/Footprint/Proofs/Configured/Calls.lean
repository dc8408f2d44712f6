import Footprint.Proofs.Call.Pointers
import Footprint.Proofs.Call.Sequential
import Footprint.Proofs.Configured.Records

/-!
# Calls of configured functions

A configured function has no body, so a call of it adds what its entry says.
The expressions of the call are matched with the arguments of the entry by
position.  A pointer argument with the flag for writing adds the block that the
expression points to, or, where no target is known, the block of the variable
that the expression names, and nothing else is added to the writes.  A pointer
argument with the flag for reading adds the block that it points to, unless the
caller has written it.
-/

namespace Footprint

open Memory Config

/-! ## The block at an address -/

namespace Memory

variable {a : Nat} {n n' : String} {pointer pointer' : Bool} {m m' : Memory}

/-- The block at the address is called so, and is a pointer or not. -/
structure Called (a : Nat) (n : String) (pointer : Bool) (m : Memory) : Prop where
  block : ∃ b, m.block? a = some b ∧ b.var < m.vars.size ∧ (m.varOf b.var).name = n ∧
    (m.varOf b.var).isPointer = pointer

theorem Called.unique (h : Called a n pointer m) (h' : Called a n' pointer' m) :
    n = n' ∧ pointer = pointer' := by
  obtain ⟨b, hb, _, hn, hp⟩ := h.block
  obtain ⟨b', hb', _, hn', hp'⟩ := h'.block
  cases hb.symm.trans hb'
  exact ⟨hn.symm.trans hn', hp.symm.trans hp'⟩

theorem Linked.exists_called (hl : Linked none m) {b : Block} (hb : m.block? a = some b) :
    Called a (m.varOf b.var).name (m.varOf b.var).isPointer m :=
  ⟨b, hb, hl.var_lt hb, rfl, rfl⟩

theorem Called.setVar (h : Called a n pointer m) (id : VarId) {f : Variable → Variable}
    (hf : ∀ v, (f v).name = v.name ∧ (f v).isPointer = v.isPointer) :
    Called a n pointer (m.setVar id f) := by
  obtain ⟨b, hb, hlt, hn, hp⟩ := h.block
  have hvar : ((m.setVar id f).varOf b.var).name = n ∧
      ((m.setVar id f).varOf b.var).isPointer = pointer := by
    rw [varOf_setVar]
    split
    · exact ⟨(hf _).1.trans hn, (hf _).2.trans hp⟩
    · exact ⟨hn, hp⟩
  exact ⟨b, hb, by simpa [Memory.setVar] using hlt, hvar⟩

theorem Called.withPart (h : Called a n pointer m) (name : String) (parent : Nat) (v : Variable) :
    Called a n pointer (m.withPart name parent v) := by
  obtain ⟨b, hb, hlt, hn, hp⟩ := h.block
  have hvar : (m.withPart name parent v).varOf b.var = m.varOf b.var :=
    (varOf_push m v b.var).trans (if_neg (Nat.ne_of_lt hlt))
  refine ⟨b, ?_, Nat.lt_of_lt_of_le hlt (by simp [Memory.withPart, Memory.withBlock]), ?_⟩
  · exact block?_withBlock_of_some
      (m := { m with vars := m.vars.push v }) hb name parent m.vars.size
  · rw [hvar]
    exact ⟨hn, hp⟩

theorem Called.sameBlocks (h : Called a n pointer m) (hs : SameBlocks m m') :
    Called a n pointer m' := by
  obtain ⟨b, hb, hlt, hn, hp⟩ := h.block
  obtain ⟨b', hb', _, _, hv⟩ := hs.block a b hb
  refine ⟨b', hb', ?_, ?_⟩
  · rw [hs.vars, hv]
    exact hlt
  · rw [hs.varOf, hv]
    exact ⟨hn, hp⟩

/-- Blocks are called the same while names are looked up and uses noted. -/
theorem called_steady (f : String) (a : Nat) (n : String) (pointer : Bool) :
    Steady f (fun _ => True) (Called a n pointer) where
  element _ _ := trivial
  member _ := trivial
  part h _ := h.setVar _ fun _ => ⟨rfl, rfl⟩
  block h _ _ := h.withPart _ _ _
  pointers h hs := h.sameBlocks hs
  read h := h.setVar _ fun v => ⟨markRead_name f v, (markRead_same f v).2.1⟩
  write h := h.setVar _ fun v => ⟨markWrite_name f v, (markWrite_same f v).2.1⟩

/-- Where a name in a body is found. -/
def found (s : Scope) (name : String) : MemM (Option Nat) := do
  match ← resolve s.types name with
  | some a => return some a
  | none => resolve s.types (ownedName s.name name)

end Memory

namespace Walk

variable {s : Scope} {use : Use} {w w' : Walk} {α β : Type}

theorem onMemory_bind (x : MemM α) (f : α → MemM β) :
    onMemory (x >>= f) = onMemory x >>= fun r => onMemory (f r) := by
  funext w
  cases hx : x w.memory with
  | ok r m =>
    refine Eq.trans ?_ (bind_of_ok (onMemory_ok hx)).symm
    have hbind : (x >>= f) w.memory = f r m := bind_of_ok hx
    unfold onMemory zoom
    rw [hbind]
  | error e m =>
    have hbind : (x >>= f) w.memory = .error e m := bind_of_error hx
    have herror : onMemory x w = .error e { w with memory := m } := by
      unfold onMemory zoom
      rw [hx]
    refine Eq.trans ?_ (bind_of_error herror).symm
    unfold onMemory zoom
    rw [hbind]

theorem addressIn_eq (s : Scope) (name : String) :
    addressIn s name = onMemory (found s name) := by
  unfold addressIn found
  rw [onMemory_bind]
  refine congrArg _ (funext fun r => ?_)
  cases r with
  | none => rfl
  | some a => rfl

theorem onMemory_value {x : MemM α} {r : α} (h : onMemory x w = .ok r w') :
    x w.memory = .ok r w'.memory ∧ w' = { w with memory := w'.memory } := by
  rw [onMemory, zoom] at h
  split at h
  · next hx =>
    cases h
    exact ⟨hx, rfl⟩
  · cases h

/-! ## Uses of what is passed -/

/-- Only names that are shared have been added. -/
structure SameUses (s : Scope) (w w' : Walk) : Prop where
  memory : w'.memory = w.memory
  written : w'.written = w.written
  size : w'.functions.size = w.functions.size
  noted : ∀ use, noted s use w' = noted s use w

theorem SameUses.refl (s : Scope) (w : Walk) : SameUses s w w := ⟨rfl, rfl, rfl, fun _ => rfl⟩

theorem sameUses_share (name : String) : Keeps (SameUses s w) (share s name) := by
  refine keeps_share_of name fun g hg => .modify fun w' hw' => ⟨hw'.memory, hw'.written, ?_, ?_⟩
  · rw [Array.size_modify]
    exact hw'.size
  · intro use
    refine (noted_modify_same w' fun f => ?_).trans (hw'.noted use)
    obtain ⟨shared, he⟩ := hg f
    rw [he, names_shared]

theorem sameUses_share? (name : Option String) : Keeps (SameUses s w) (share? s name) := by
  cases name with
  | none => exact .pure _
  | some name => exact sameUses_share name

theorem sameUses_variableAt (a : Int) : Keeps (SameUses s w) (variableAt a) := by
  refine Keeps.zoom_part (J := (· = w.memory)) (keeps_variableAt a) (fun _ h => h.memory) ?_
  exact fun _ _ h hm => ⟨hm, h.written, h.size, h.noted⟩

theorem sameUses_shareAt (a : Int) : Keeps (SameUses s w) (shareAt s a) := by
  refine .bind (sameUses_variableAt a) fun v => ?_
  cases v with
  | none => exact .pure _
  | some v => exact sameUses_share _

variable {n q : String} {callee : Function}

/-- A name is added to the record of the caller. -/
theorem mem_noted_note {x : String} (hroot : s.root < w.functions.size)
    (h : w'.functions = w.functions.modify s.root (·.note use n)) :
    x ∈ noted s use w' ↔ x ∈ noted s use w ∨ x = n := by
  rw [noted, noted, h, Array.getElem?_modify, if_pos rfl, Array.getElem?_eq_getElem hroot]
  simp only [Option.map_some, Option.getD_some, Function.names_note, if_true, NameSet.mem_insert]
  exact or_comm

/-- A mark notes the block at the address, if it is no pointer, and for a read not yet written. -/
theorem mem_noted_mark {a : Nat} {b : Block} (hl : Linked none w.memory)
    (hb : w.memory.block? a = some b) (hroot : s.root < w.functions.size)
    (h : mark s use a w = .ok ⟨⟩ w') (x : String) : x ∈ noted s use w' ↔ x ∈ noted s use w ∨
      w.memory.Called a x false ∧ (use = .read → x ∉ w.written) := by
  have hcalled := hl.exists_called hb
  by_cases hnote : (w.memory.varOf b.var).isPointer = false ∧
      (use = .read → (w.memory.varOf b.var).name ∉ w.written)
  · cases (mark_eq hl hb rfl hnote.1 hnote.2).symm.trans h
    refine (mem_noted_note hroot rfl).trans (or_congr_right ⟨?_, fun hx => (hx.1.unique hcalled).1⟩)
    rintro rfl
    exact ⟨hnote.1 ▸ hcalled, hnote.2⟩
  · have hshared : (w.memory.varOf b.var).isPointer = true ∨
        (use = .read ∧ (w.memory.varOf b.var).name ∈ w.written) := by
      simpa only [not_and_or, Bool.not_eq_false, Classical.not_imp, not_not] using hnote
    cases (mark_shared hl hb rfl hshared).symm.trans h
    refine ⟨.inl, fun hx => hx.resolve_right fun hx => hnote ?_⟩
    obtain ⟨rfl, hp⟩ := hx.1.unique hcalled
    exact ⟨hp.symm, hx.2⟩

theorem mem_noted_markItself {a : Nat} (hl : Linked none w.memory)
    (hn : w.memory.nameAt? a = some n) (hroot : s.root < w.functions.size)
    (h : markItself s use a w = .ok ⟨⟩ w') (x : String) :
    x ∈ noted s use w' ↔ x ∈ noted s use w ∨ x = n := by
  obtain ⟨b, hb, rfl⟩ := Option.map_eq_some_iff.mp hn
  obtain ⟨_, _, hlook, h⟩ := exists_of_bind h
  cases (onMemory_ok (variableAt_ok hl hb)).symm.trans hlook
  cases h
  refine mem_noted_note hroot ?_
  cases use with
  | read => rfl
  | write => rfl

/-- What a use of what is passed comes to: the block that the actual points to, if that is no
pointer, and without a target the block of the variable that the actual names. -/
inductive Actual.Pointee (s : Scope) (x : Actual) (m : Memory) (n : String) : Prop
  | target {a : Nat} (ht : x.target = some (a : Int)) (h : m.Called a n false)
  | itself {y : String} {a : Nat} {m' : Memory} (ht : x.target = none) (hy : x.name = some y)
      (hne : y ≠ "") (hfound : found s y m = .ok (some a) m') (hn : m'.nameAt? a = some n)

section Pointee

variable {x : Actual} (hw : w.Aimed) (hroot : s.root < w.functions.size)

include hw hroot

theorem mem_noted_mergePointee_target {a : Nat} (ht : x.target = some (a : Int))
    (howns : w.memory.Owns a) (h : mergePointee s use (some x) w = .ok ⟨⟩ w') (n : String) :
    n ∈ noted s use w' ↔ n ∈ noted s use w ∨
      w.memory.Called a n false ∧ (use = .read → n ∉ w.written) := by
  unfold mergePointee at h
  rw [Option.bind_some, ht] at h
  obtain ⟨_, w₁, hshareAt, h⟩ := exists_of_bind h
  obtain ⟨_, w₂, hshare, hmark⟩ := exists_of_bind h
  have hsame₁ := ((sameUses_shareAt a).ends w (.refl s w)).value _ _ hshareAt
  have hsame := ((sameUses_share? _).ends w₁ hsame₁).value _ _ hshare
  obtain ⟨c, hc, b, hb⟩ := howns.exists_nat
  cases Int.ofNat_inj.mp hc
  have hl : Linked none w₂.memory := hsame.memory ▸ hw.memory.linked
  rw [mem_noted_mark hl (hsame.memory ▸ hb) (hsame.size ▸ hroot) hmark, hsame.noted, hsame.memory,
    hsame.written]

/-- What is noted for an argument without a target. -/
theorem mem_noted_mergePointee_itself (ht : x.target = none)
    (h : mergePointee s use (some x) w = .ok ⟨⟩ w') (n : String) :
    n ∈ noted s use w' ↔ n ∈ noted s use w ∨ x.Pointee s w.memory n := by
  unfold mergePointee at h
  rw [Option.bind_some, ht, Option.bind_some] at h
  cases hname : x.name.filter (!·.isEmpty) with
  | none =>
    rw [hname] at h
    cases h
    refine ⟨.inl, fun hn => hn.resolve_right fun hp => ?_⟩
    cases hp with
    | target ht' => cases ht.symm.trans ht'
    | itself _ hy hne =>
      rw [hy] at hname
      simp [hne] at hname
  | some y =>
    rw [hname] at h
    obtain ⟨hy, hne⟩ := Option.filter_eq_some_iff.mp hname
    obtain ⟨_, w₁, hshare, h⟩ := exists_of_bind h
    obtain ⟨r, w₂, haddress, h⟩ := exists_of_bind h
    have hsame := ((sameUses_share y).ends w (.refl s w)).value _ _ hshare
    have hpassed₀ : Passed s w w := ⟨hw, .refl⟩
    obtain ⟨hpassed₁, _, _⟩ := ((minds_share y).ends w hpassed₀ (.refl _)).value _ _ hshare
    obtain ⟨hpassed, _, howns⟩ :=
      ((minds_addressIn y).ends w₁ hpassed₁ (.refl _)).value _ _ haddress
    rw [addressIn_eq] at haddress
    obtain ⟨hfound, hw₂⟩ := onMemory_value haddress
    rw [hsame.memory] at hfound
    have hnoted : noted s use w₂ = noted s use w := by
      rw [hw₂]
      exact hsame.noted use
    have hroot₂ : s.root < w₂.functions.size := by
      rw [hw₂]
      exact hsame.size ▸ hroot
    cases r with
    | none =>
      cases h
      rw [hnoted]
      refine ⟨.inl, fun hn => hn.resolve_right fun hp => ?_⟩
      cases hp with
      | target ht' => cases ht.symm.trans ht'
      | itself _ hy' _ hfound' =>
        cases hy.symm.trans hy'
        cases hfound.symm.trans hfound'
    | some a =>
      obtain ⟨_, hc, b, hb⟩ := (howns a rfl).exists_nat
      cases Int.ofNat_inj.mp hc
      have hblock := nameAt?_of_block hb
      rw [mem_noted_markItself hpassed.aimed.memory.linked hblock hroot₂ h, hnoted]
      refine or_congr_right ⟨?_, fun hp => ?_⟩
      · rintro rfl
        exact .itself ht hy (by simpa using hne) hfound hblock
      · cases hp with
        | target ht' => cases ht.symm.trans ht'
        | itself _ hy' _ hfound' hn' =>
          cases hy.symm.trans hy'
          cases hfound.symm.trans hfound'
          exact Option.some.inj (hn'.symm.trans hblock)

/-- A write of what is passed notes exactly what it comes to. -/
theorem mem_writes_mergePointee (howns : w.memory.OwnsTarget x.target)
    (h : mergePointee s .write (some x) w = .ok ⟨⟩ w') (n : String) :
    n ∈ noted s .write w' ↔ n ∈ noted s .write w ∨ x.Pointee s w.memory n := by
  cases ht : x.target with
  | none => exact mem_noted_mergePointee_itself hw hroot ht h n
  | some t =>
    obtain ⟨a, rfl, _⟩ := (howns t ht).exists_nat
    rw [mem_noted_mergePointee_target hw hroot ht (howns _ ht) h n]
    refine or_congr_right ⟨fun hc => .target ht hc.1, fun hp => ⟨?_, fun hr => by cases hr⟩⟩
    cases hp with
    | target ht' hc =>
      cases ht.symm.trans ht'
      exact hc
    | itself ht' => cases ht.symm.trans ht'

end Pointee

/-! ## Matching expressions with arguments -/

/-- What the analysis takes an expression for when it is passed in the state. -/
def Actual.Of (s : Scope) (e : Node) (w : Walk) (x : Actual) : Prop :=
  ∃ w₁ w₂, pointerTarget s e w = .ok x.target w₁ ∧ accessName s e w₁ = .ok x.name w₂

theorem actualFor?_putActual {x : Actual} (hx : x.param = .text q) (r : String) :
    ∀ found : List Actual,
      actualFor? (putActual x found) r = if r = q then some x else actualFor? found r
  | [] => by
    by_cases hr : r = q
    · simp [putActual, actualFor?, hx, hr]
    · simp [putActual, actualFor?, hx, hr, Ne.symm hr]
  | y :: found => by
    unfold putActual
    split
    · next hkey =>
      -- the entry for the parameter is the first one, so nothing but this entry changes
      have hy : y.param = .text q := Label.eq_text_of_key (hkey.trans (by rw [hx]; rfl))
      by_cases hr : r = q
      · simp [actualFor?, hy, hr, ← hx]
      · simp [actualFor?, hy, hr, Ne.symm hr]
    · next hkey =>
      have hy : y.param ≠ .text q := fun hy => hkey (by rw [hy, hx])
      have ih := actualFor?_putActual hx r found
      unfold actualFor? at ih ⊢
      rw [List.find?_cons, List.find?_cons, ih]
      split
      · next hr =>
        have hne : r ≠ q := fun he => hy (he ▸ of_decide_eq_true hr)
        rw [if_neg hne]
      · rfl

/-- Parameters with different names have the actuals of their own expressions. -/
theorem actualsOf_each {P : Walk → Prop}
    (hP : ∀ param e u r v, P u → actualOf? s callee param e u = .ok r v → P v) :
    ∀ {pairs : List (String × Node)} {found actuals : List Actual} {w w' : Walk},
      (pairs.map Prod.fst).Nodup → P w →
      actualsOf s callee found (pairs.map fun e => (.text e.1, e.2)) w = .ok actuals w' →
      P w' ∧ (∀ q, q ∉ pairs.map Prod.fst → actualFor? actuals q = actualFor? found q) ∧
        ∀ e ∈ pairs, ∃ u v r, P u ∧ actualOf? s callee (.text e.1) e.2 u = .ok r v ∧
          ∀ x, r = some x → actualFor? actuals e.1 = some x
  | [], _, _, _, _, _, hw, h => by
    cases h
    exact ⟨hw, fun _ _ => rfl, fun _ he => by cases he⟩
  | (q, e) :: pairs, found, actuals, w, w', hd, hw, h => by
    rw [List.map_cons, List.nodup_cons] at hd
    obtain ⟨r, w₁, hr, h⟩ := exists_of_bind h
    have hw₁ := hP _ _ _ _ _ hw hr
    -- the parameter is none of the others, so what is found for it stays
    cases r with
    | none =>
      obtain ⟨hw', hother, heach⟩ := actualsOf_each hP hd.2 hw₁ h
      refine ⟨hw', fun z hz => hother z fun hz' => hz (List.mem_cons_of_mem _ hz'), ?_⟩
      intro pair hpair
      rcases List.mem_cons.mp hpair with rfl | hpair
      · exact ⟨w, w₁, none, hw, hr, fun _ hx => by cases hx⟩
      · exact heach pair hpair
    | some x =>
      have hparam := actualOf?_param hr
      obtain ⟨hw', hother, heach⟩ := actualsOf_each hP hd.2 hw₁ h
      refine ⟨hw', fun z hz => ?_, ?_⟩
      · rw [List.map_cons, List.mem_cons, not_or] at hz
        rw [hother z hz.2, actualFor?_putActual hparam, if_neg hz.1]
      · intro pair hpair
        rcases List.mem_cons.mp hpair with rfl | hpair
        · refine ⟨w, w₁, some x, hw, hr, fun y hy => ?_⟩
          rw [hother _ hd.1, actualFor?_putActual hparam, if_pos rfl, hy]
        · exact heach pair hpair

/-- For a parameter that pointers are passed for there is an actual. -/
theorem actualOf?_referenced {e : Node} {id : VarId}
    {r : Option Actual} (hid : callee.vars.get? (ownedName callee.name.plain q) = some id)
    (href : ByReference (w.memory.varOf id))
    (h : actualOf? s callee (.text q) e w = .ok r w') : ∃ x, r = some x ∧ x.Of s e w := by
  have hid : callee.vars.get? (ownedName callee.name.plain (Label.text q).plain) = some id := hid
  have href : ((w.memory.varOf id).isPointer || (w.memory.varOf id).usedAsArray) = true := href
  unfold actualOf? at h
  rw [hid] at h
  obtain ⟨_, _, hget, h⟩ := exists_of_bind h
  cases hget
  dsimp only at h
  rw [if_pos href] at h
  obtain ⟨target, w₁, htarget, h⟩ := exists_of_bind h
  obtain ⟨name, w₂, hname, h⟩ := exists_of_bind h
  obtain ⟨_, _, _, h⟩ := exists_of_bind h
  cases h
  exact ⟨_, rfl, w₁, w₂, htarget, hname⟩

/-- The name of what is behind a parameter is carried over to what is passed for it. -/
theorem mergeUse_pointee (s : Scope) {c : String}
    (hname : callee.name = .text c) (hc : '[' ∉ c.toList) (hq : '[' ∉ q.toList)
    (actuals : List Actual) (use : Use) :
    mergeUse s callee actuals use (ownedName c q ++ pointeeEnding) =
      mergePointee s use (actualFor? actuals q) := by
  have howned : ownedName c q ++ pointeeEnding =
      ownerStart c ++ (q ++ pointeeEnding) := String.append_assoc
  have hindex : Text.has (pointeeEnding ++ "[") (ownedName c q ++ pointeeEnding) =
      false := by
    refine Text.has_eq_false (c := '[') (by decide) ?_
    have hending : '[' ∉ pointeeEnding.toList := by decide
    simp [ownedName, String.toList_append, hc, hq, hending]
  have hstarts : Text.starts (ownerStart c) (ownedName c q ++ pointeeEnding) = true :=
    Text.starts_iff.mpr ⟨_, howned⟩
  have hends : Text.ends pointeeEnding (ownedName c q ++ pointeeEnding) = true :=
    Text.ends_iff.mpr ⟨_, rfl⟩
  unfold mergeUse
  rw [hname]
  dsimp only [Label.plain]
  rw [if_pos hstarts, hindex, if_neg Bool.false_ne_true, if_pos hends, howned,
    Text.dropFirst_append, Text.withoutSuffix_append]

/-! ## While uses are carried over -/

/-- The caller has come on from `w` while uses of the callee are carried over. -/
structure During (s : Scope) (w₀ w u : Walk) : Prop where
  passed : Passed s w₀ u
  grows : Grows w.memory u.memory
  called : ∀ a n pointer, w.memory.Called a n pointer → u.memory.Called a n pointer

section During

variable {w₀ u v : Walk} {callee : Function} {actuals : List Actual}

theorem During.refl (h : Passed s w₀ w) : During s w₀ w w := ⟨h, .refl _, fun _ _ _ h => h⟩

theorem During.mergeUse (ha : OwnsActuals w.memory actuals) (h : During s w₀ w u) {name : String}
    (hrun : mergeUse s callee actuals use name u = .ok ⟨⟩ v) : During s w₀ w v := by
  obtain ⟨hpassed, hgrows, _⟩ := ((minds_mergeUse callee (ha.grows h.grows) name).ends u h.passed
    (.refl _)).value _ _ hrun
  refine ⟨hpassed, h.grows.trans hgrows, fun a n pointer hcalled => ?_⟩
  have hlooks : Looks s (Within (Called a n pointer) (fun _ => True)
      (u.functions.map Function.signature)) :=
    looks_of_steady (called_steady s.name a n pointer)
  exact (((hlooks.marks use).mergeUse callee actuals name).ends u
    ⟨h.called a n pointer hcalled, trivial, rfl⟩ |>.value _ _ hrun).memory

theorem During.forM (ha : OwnsActuals w.memory actuals) :
    ∀ {names : List String} {u v : Walk}, During s w₀ w u →
      names.forM (Walk.mergeUse s callee actuals use) u = .ok ⟨⟩ v → During s w₀ w v
  | [], _, _, h, hrun => by
    cases hrun
    exact h
  | _ :: _, _, _, h, hrun => by
    obtain ⟨_, _, hfirst, hrest⟩ := exists_of_bind hrun
    exact During.forM ha (h.mergeUse ha hfirst) hrest

/-- A block that was there is called the same. -/
theorem During.called_iff (h : During s w₀ w u) (hl : Linked none w.memory) {a : Nat}
    (howns : w.memory.Owns a) {n : String} {pointer : Bool} :
    u.memory.Called a n pointer ↔ w.memory.Called a n pointer := by
  refine ⟨fun hu => ?_, h.called a n pointer⟩
  obtain ⟨_, hc, b, hb⟩ := howns.exists_nat
  cases Int.ofNat_inj.mp hc
  have hw := hl.exists_called hb
  obtain ⟨rfl, rfl⟩ := hu.unique (h.called _ _ _ hw)
  exact hw

end During

/-! ## The call -/

/-- A write of what is behind the argument is carried over to the name: it is that of the block that
the actual points to when the actuals have been taken, in `w₂`, or, without a target, that of the
variable that the actual names when the write is carried over. -/
inductive Actual.CarriedTo (s : Scope) (g : Function) (arguments : List Node) (w₁ w₂ : Walk)
    (name : String) (x : Actual) (n : String) : Prop
  | target {a : Nat} (ht : x.target = some (a : Int)) (h : w₂.memory.Called a n false)
  | itself {y : String} {a : Nat} {u v : Walk} {m : Memory} (ht : x.target = none)
      (hy : x.name = some y) (hne : y ≠ "") (hu : CarriesWrite s g arguments w₁ name u v)
      (hfound : found s y u.memory = .ok (some a) m) (hn : m.nameAt? a = some n)

/-- The call with the expressions does what the arguments of a description say.  It starts in `w`,
the expressions have been searched for reads in `w₁`, the actuals are taken in `w₂`, and it ends in
`w'`. -/
structure Applied (s : Scope) (g : Function) (c : String) (args : List Argument)
    (arguments : List Node) (actuals : List Actual) (w w₁ w₂ w' : Walk) : Prop where
  taken : actualsOf s g [] (g.params.zip arguments) w₁ = .ok actuals w₂
  /-- The actual of a pointer argument is that of the expression in its place. -/
  matched : ∀ (k : Nat) a e, args[k]? = some a → arguments[k]? = some e →
    s.types.isPointer a.type = true →
    ∃ x u, actualFor? actuals a.name.plain = some x ∧ Steps s w₁ u ∧ x.Of s e u
  /-- The pointer arguments with the flag for writing, and nothing else, add to the writes. -/
  writes : ∀ n, n ∈ noted s .write w' ↔ n ∈ noted s .write w ∨
    ∃ (k : Nat) (a : Argument) (e : Node) (x : Actual), args[k]? = some a ∧
      arguments[k]? = some e ∧ s.types.isPointer a.type = true ∧ a.writes = true ∧
      actualFor? actuals a.name.plain = some x ∧
      x.CarriedTo s g arguments w₁ w₂ (ownedName c a.name.plain ++ pointeeEnding) n
  /-- A pointer argument with the flag for reading adds the block that it points to, unless the
  caller has written it. -/
  reads : ∀ (k : Nat) a e x (t : Nat) n, args[k]? = some a → arguments[k]? = some e →
    s.types.isPointer a.type = true → a.reads = true → actualFor? actuals a.name.plain = some x →
    x.target = some (t : Int) → w₂.memory.Called t n false →
    n ∈ noted s .read w' ∨ n ∈ w.written

section Call

variable {g : Function} {c : String} {args : List Argument} {arguments : List Node}
variable {actuals : List Actual} {w₁ w₂ w₃ u v : Walk}

theorem map_fst_zip_sublist {α β : Type} : ∀ (xs : List α) (ys : List β),
    ((xs.zip ys).map Prod.fst).Sublist xs
  | [], _ => .slnil
  | _ :: _, [] => List.nil_sublist _
  | x :: xs, _ :: ys => (map_fst_zip_sublist xs ys).cons_cons x

theorem zip_spelled (h : Spelled c args) (arguments : List Node) :
    (args.map Argument.name).zip arguments =
      ((args.map fun a => a.name.plain).zip arguments).map fun e => (.text e.1, e.2) := by
  have hnames : args.map Argument.name =
      (args.map fun a => a.name.plain).map Label.text := by
    rw [List.map_map]
    exact List.map_congr_left fun a ha => h.text a ha
  rw [hnames]
  exact List.zip_map_left

/-- The parts of a merge: the actuals, the reads, the writes and the pointers. -/
structure Merged (s : Scope) (g : Function) (arguments : List Node) (actuals : List Actual)
    (w₁ w₂ w₃ w₄ w' : Walk) : Prop where
  taken : actualsOf s g [] (g.params.zip arguments) w₁ = .ok actuals w₂
  reads : g.reads.toList.forM (mergeUse s g actuals .read) w₂ = .ok ⟨⟩ w₃
  writes : g.writes.toList.forM (mergeUse s g actuals .write) w₃ = .ok ⟨⟩ w₄
  pointers : (g.pointerEnds.entries.forM fun e => mergePointer s g actuals e.1 e.2) w₄ = .ok ⟨⟩ w'

theorem exists_merged (h : mergeCallee s g arguments w₁ = .ok ⟨⟩ w') :
    ∃ actuals w₂ w₃ w₄, Merged s g arguments actuals w₁ w₂ w₃ w₄ w' := by
  obtain ⟨actuals, w₂, htaken, h⟩ := exists_of_bind h
  obtain ⟨_, w₃, hreads, h⟩ := exists_of_bind h
  obtain ⟨_, w₄, hwrites, hpointers⟩ := exists_of_bind h
  exact ⟨actuals, w₂, w₃, w₄, htaken, hreads, hwrites, hpointers⟩

theorem keeps_noted_mergeUse (actuals : List Actual) (n : String) (use use' : Use)
    (name : String) : Keeps (fun w => n ∈ noted s use w) (mergeUse s g actuals use' name) :=
  ((mem_noted_looks n).marks use').mergeUse g actuals name

/-- What is noted stays noted while writes and pointers are carried over. -/
theorem Merged.noted_of_reads {w₄ : Walk} (h : Merged s g arguments actuals w₁ w₂ w₃ w₄ w')
    {n : String} (hn : n ∈ noted s use w₃) : n ∈ noted s use w' := by
  have hstays := Keeps.forM fun name (_ : name ∈ g.writes.toList) =>
    keeps_noted_mergeUse (s := s) (g := g) actuals n use .write name
  have h₄ := (hstays.ends w₃ hn).value _ _ h.writes
  exact ((noted_mergePointers (P := fun N => n ∈ N) g actuals _).ends w₄ h₄).value _ _ h.pointers

section Matched

variable (hspelled : Spelled c args) (hstands : g.Stands s.types c args w₁.memory)
variable (haimed : w₁.Aimed)
variable (htaken : actualsOf s g [] (g.params.zip arguments) w₁ = .ok actuals w₂)

include haimed htaken

theorem passed_taken : Passed s w₁ w₂ ∧ OwnsActuals w₂.memory actuals := by
  obtain ⟨hpassed, _, howns⟩ := ((minds_actualsOf g _ fun _ hx => by cases hx).ends w₁
    (⟨haimed, .refl⟩ : Passed s w₁ w₁) (.refl _)).value _ _ htaken
  exact ⟨hpassed, howns⟩

include hspelled hstands

/-- A pointer argument has the actual of the expression in its place, and none without one. -/
theorem exists_actual {k : Nat} {a : Argument} (ha : args[k]? = some a) :
    (∀ e, arguments[k]? = some e → s.types.isPointer a.type = true →
      ∃ x u, actualFor? actuals a.name.plain = some x ∧ Steps s w₁ u ∧ x.Of s e u) ∧
    (arguments[k]? = none → actualFor? actuals a.name.plain = none) := by
  have hname : g.name.plain = c := by rw [hstands.name]; rfl
  have hplain : (args.map fun a => a.name.plain)[k]? = some a.name.plain := by
    rw [List.getElem?_map, ha]
    rfl
  have hminds : ∀ param e u r v, Passed s w₁ u → actualOf? s g param e u = .ok r v →
      Passed s w₁ v := fun param e u r v hu hr =>
    (((minds_actualOf? g param e).ends u hu (.refl _)).value _ _ hr).1
  have hdistinct := hspelled.distinct.sublist (map_fst_zip_sublist _ arguments)
  rw [hstands.params, zip_spelled hspelled] at htaken
  obtain ⟨_, hother, heach⟩ := actualsOf_each hminds hdistinct ⟨haimed, .refl⟩ htaken
  refine ⟨fun e he ht => ?_, fun hnone => ?_⟩
  · have hpair : ((args.map fun a => a.name.plain).zip arguments)[k]? = some (a.name.plain, e) :=
      List.getElem?_zip_eq_some.mpr ⟨hplain, he⟩
    obtain ⟨u, v, r, hu, hr, hfor⟩ := heach _ (List.mem_of_getElem? hpair)
    obtain ⟨id, hid, href⟩ := hstands.pointer a (List.mem_of_getElem? ha) ht
    have href := hu.steps.closed (closed_referenced s.types id) href
    rw [← hname] at hid
    obtain ⟨x, hx, hof⟩ := actualOf?_referenced hid href.byReference hr
    exact ⟨x, u, hfor x hx, hu.steps, hof⟩
  · refine (hother a.name.plain fun hmem => ?_).trans rfl
    obtain ⟨pair, hpair, hfst⟩ := List.mem_map.mp hmem
    obtain ⟨j, hj⟩ := List.getElem?_of_mem hpair
    obtain ⟨hj₁, hj₂⟩ := List.getElem?_zip_eq_some.mp hj
    have hlt := (List.getElem?_eq_some_iff.mp hplain).1
    rw [(List.getElem?_inj hlt hspelled.distinct).mp (hplain.trans (hfst ▸ hj₁.symm)), hj₂] at hnone
    cases hnone

end Matched

section Merged

variable {w₄ : Walk} (hspelled : Spelled c args)
variable (hstands : g.Stands s.types c args w₁.memory) (haimed : w₁.Aimed)
variable (hroot : ∀ u, Steps s w₁ u → s.root < u.functions.size)
variable (h : Merged s g arguments actuals w₁ w₂ w₃ w₄ w')

include haimed h

theorem Merged.during : During s w₁ w₂ w₃ := by
  obtain ⟨hpassed, howns⟩ := passed_taken haimed h.taken
  exact During.forM howns (.refl hpassed) h.reads

variable {name n : String} {x : Actual} {a : Argument}

/-- Before a write is carried over, blocks are called as when the actuals were taken. -/
theorem Merged.during_write
    (hstep : StepIn (mergeUse s g actuals .write) name u v g.writes.toList w₃) : During s w₁ w₂ u :=
  hstep.before (fun _ _ _ hu hrun => hu.mergeUse (passed_taken haimed h.taken).2 hrun)
    (h.during haimed)

/-- What a write comes to when it is carried over is what it was to come to. -/
theorem Merged.carriedTo_of_pointee
    (hstep : StepIn (mergeUse s g actuals .write) name u v g.writes.toList w₃)
    (howns : w₂.memory.OwnsTarget x.target) (hp : x.Pointee s u.memory n) :
    x.CarriedTo s g arguments w₁ w₂ name n := by
  have hl := (passed_taken haimed h.taken).1.aimed.memory.linked
  cases hp with
  | target ht hcalled =>
    exact .target ht (((h.during_write haimed hstep).called_iff hl (howns _ ht)).mp hcalled)
  | itself ht hy hne hfound hn =>
    exact .itself ht hy hne ⟨actuals, w₂, w₃, h.taken, h.reads, hstep⟩ hfound hn

theorem Merged.exists_pointee (hname : name ∈ g.writes.toList)
    (hc : x.CarriedTo s g arguments w₁ w₂ name n) :
    ∃ u v, StepIn (mergeUse s g actuals .write) name u v g.writes.toList w₃ ∧
      x.Pointee s u.memory n := by
  cases hc with
  | target ht hcalled =>
    obtain ⟨u, v, hstep⟩ := exists_stepIn_of_mem hname h.writes
    exact ⟨u, v, hstep, .target ht ((h.during_write haimed hstep).called _ _ _ hcalled)⟩
  | @itself y a u v m ht hy hne hu hfound hn =>
    obtain ⟨actuals', w₂', w₃', htaken, hreads, hstep⟩ := hu
    cases htaken.symm.trans h.taken
    cases hreads.symm.trans h.reads
    exact ⟨u, v, hstep, .itself ht hy hne hfound hn⟩

include hspelled hstands hroot

/-- One write of the callee notes what it comes to. -/
theorem Merged.mem_writes_step (ha : a ∈ args)
    (hx : actualFor? actuals a.name.plain = some x)
    (hstep : StepIn (mergeUse s g actuals .write)
      (ownedName c a.name.plain ++ pointeeEnding) u v g.writes.toList w₃) (n : String) :
    n ∈ noted s .write v ↔ n ∈ noted s .write u ∨ x.Pointee s u.memory n := by
  have hduring := h.during_write haimed hstep
  have howns := (passed_taken haimed h.taken).2 x (List.mem_of_find?_eq_some hx)
  have hrun := hstep.run
  rw [mergeUse_pointee s hstands.name hspelled.function (hspelled.plain a ha), hx] at hrun
  exact mem_writes_mergePointee hduring.passed.aimed (hroot u hduring.passed.steps)
    (howns.grows hduring.grows) hrun n

/-- After the merge the caller writes what it wrote before, and what the pointer arguments with the
flag come to. -/
theorem Merged.mem_writes (n : String) : n ∈ noted s .write w' ↔ n ∈ noted s .write w₁ ∨
    ∃ (k : Nat) (a : Argument) (e : Node) (x : Actual), args[k]? = some a ∧
      arguments[k]? = some e ∧ s.types.isPointer a.type = true ∧ a.writes = true ∧
      actualFor? actuals a.name.plain = some x ∧
      x.CarriedTo s g arguments w₁ w₂ (ownedName c a.name.plain ++ pointeeEnding) n := by
  have hcall : mergeCallee s g arguments w₁ = .ok ⟨⟩ w' :=
    (bind_of_ok h.taken).trans ((bind_of_ok h.reads).trans ((bind_of_ok h.writes).trans h.pointers))
  have hflagged : ∀ name, name ∈ g.writes.toList ↔ ∃ a ∈ args, s.types.isPointer a.type = true ∧
      a.writes = true ∧ name = ownedName c a.name.plain ++ pointeeEnding := by
    rw [hstands.writes]
    exact fun name => mem_flagged
  constructor
  · intro hn
    rcases (mem_writes_mergeCallee hcall n).mp hn with hn | ⟨name, u, v, hcarries, hu, hv⟩
    · exact .inl hn
    obtain ⟨actuals', w₂', w₃', htaken, hreads, hstep⟩ := hcarries
    cases htaken.symm.trans h.taken
    cases hreads.symm.trans h.reads
    obtain ⟨a, ha, ht, hw, rfl⟩ := (hflagged name).mp hstep.mem
    obtain ⟨k, hk⟩ := List.getElem?_of_mem ha
    obtain ⟨hsome, hnone⟩ := exists_actual hspelled hstands haimed h.taken hk
    cases he : arguments[k]? with
    | none =>
      -- without an expression in its place the argument is not carried over
      have hrun := hstep.run
      rw [mergeUse_pointee s hstands.name hspelled.function (hspelled.plain a ha), hnone he] at hrun
      cases hrun
      exact absurd hv hu
    | some e =>
      obtain ⟨x, _, hx, _⟩ := hsome e he ht
      have hp :=
        ((h.mem_writes_step hspelled hstands haimed hroot ha hx hstep n).mp hv).resolve_left
        hu
      have howns := (passed_taken haimed h.taken).2 x (List.mem_of_find?_eq_some hx)
      exact .inr ⟨k, a, e, x, hk, he, ht, hw, hx, h.carriedTo_of_pointee haimed hstep howns hp⟩
  · rintro (hn | ⟨k, a, e, x, hk, he, ht, hw, hx, hc⟩)
    · exact (mem_writes_mergeCallee hcall n).mpr (.inl hn)
    have ha := List.mem_of_getElem? hk
    have hname := (hflagged _).mpr ⟨a, ha, ht, hw, rfl⟩
    obtain ⟨u, v, hstep, hp⟩ := h.exists_pointee haimed hname hc
    have hv := (h.mem_writes_step hspelled hstands haimed hroot ha hx hstep n).mpr (.inr hp)
    have h₄ := hstep.holds (keeps_noted_mergeUse actuals n _ _) hv h.writes
    exact ((noted_mergePointers (P := fun N => n ∈ N) g actuals _).ends w₄ h₄).value _ _ h.pointers

/-- After the merge the caller reads what the pointer arguments with the flag point to, unless it
has written it. -/
theorem Merged.mem_reads {t : Nat} (ha : a ∈ args)
    (htype : s.types.isPointer a.type = true) (hr : a.reads = true)
    (hx : actualFor? actuals a.name.plain = some x) (ht : x.target = some (t : Int))
    (hcalled : w₂.memory.Called t n false) : n ∈ noted s .read w' ∨ n ∈ w₁.written := by
  obtain ⟨hpassed, howns⟩ := passed_taken haimed h.taken
  have hname : ownedName c a.name.plain ++ pointeeEnding ∈ g.reads.toList := by
    rw [hstands.reads]
    exact mem_flagged.mpr ⟨a, ha, htype, hr, rfl⟩
  obtain ⟨u, v, hstep⟩ := exists_stepIn_of_mem hname h.reads
  have hduring : During s w₁ w₂ u :=
    hstep.before (fun _ _ _ hu hrun => hu.mergeUse howns hrun) (.refl hpassed)
  -- reads do not change what is written
  have hkept : Marks s .read fun u => u.written = w₁.written := written_marks
  have hwritten₂ : w₂.written = w₁.written :=
    ((hkept.actualsOf g [] _).ends w₁ rfl).value _ _ h.taken
  have hwritten : u.written = w₁.written :=
    hstep.before
      (fun name _ _ hu hrun => ((hkept.mergeUse g actuals name).ends _ hu).value _ _ hrun)
      hwritten₂
  by_cases hn : n ∈ w₁.written
  · exact .inr hn
  · have hrun := hstep.run
    rw [mergeUse_pointee s hstands.name hspelled.function (hspelled.plain a ha), hx] at hrun
    have htarget := (howns x (List.mem_of_find?_eq_some hx) t ht).grows hduring.grows
    have hv : n ∈ noted s .read v :=
      (mem_noted_mergePointee_target hduring.passed.aimed (hroot u hduring.passed.steps) ht htarget
        hrun n).mpr (.inr ⟨hduring.called _ _ _ hcalled, fun _ => hwritten ▸ hn⟩)
    exact .inl (h.noted_of_reads (hstep.holds (keeps_noted_mergeUse actuals n _ _) hv h.reads))

end Merged

end Call

end Walk

namespace Project

open Walk

variable {fs : Files} {path c : String} {p : Project} {args : List Argument}

/-- A call of a configured function, in any state of a body, adds to the caller exactly what the
description of the function says. -/
theorem configured_call (hp : Reached fs path p)
    (hc : Config.Configures fs (fs.absolute path) c args) {id : Nat} {s : Scope} {w₀ w w' : Walk}
    (henters : Analysis.Enters p.types id p.analysis s w₀)
    (hbody : ((p.record? id).bind Function.body).isSome = true) (hsteps : Steps s w₀ w)
    {i : NodeInfo} {cs : List Node} {d : Option Node} (hi : i.kind = .call)
    (hname : Node.calleeName i = c)
    (hwalk : walk p.analysis.index s (.mk i cs d) w = .ok ⟨⟩ w') :
    ∃ g actuals w₁ w₂, readArguments s i cs w = .ok ⟨⟩ w₁ ∧
      calleeOf? p.analysis.index w₁.functions i = some g ∧
      Applied s g c args (Node.mk i cs d).arguments actuals w w₁ w₂ w' := by
  obtain ⟨⟨_, j⟩, _, hdescribes⟩ := hc.entry
  have hspelled := hdescribes.spelled
  rw [walk_call hi] at hwalk
  obtain ⟨_, w₁, hread, hmerge⟩ := exists_of_bind hwalk
  -- the expressions are searched by steps that write nothing
  have haimed := hsteps.aimed (henters.aimed hp.aimed.analysis)
  have hminds : Walk.MindsAny s w₀ w.memory (readArguments s i cs) :=
    minds_readEach cs _
  have hpassed := ((hminds.ends w ⟨haimed, hsteps⟩ (.refl _)).value _ _ hread).1
  have hwrites : noted s .write w₁ = noted s .write w :=
    noted_write_of_eq (((recordedWrites_marks.readArguments i cs).ends w rfl).value _ _ hread)
  have hwritten : w₁.written = w.written :=
    ((written_marks.readArguments i cs).ends w rfl).value _ _ hread
  -- the record of the function is the one that its description gave it
  obtain ⟨k, g, hinstalled⟩ := hp.installed hc
  obtain ⟨hg, hstands⟩ := hinstalled.steps hp.aimed.analysis henters hbody hpassed.steps
  have hcallee : calleeOf? p.analysis.index w₁.functions i = some g := by
    unfold calleeOf?
    rw [hname, if_neg (by simpa using hdescribes.named), hinstalled.index]
    exact hg
  rw [mergeCall_eq, hcallee] at hmerge
  obtain ⟨actuals, w₂, w₃, w₄, hmerged⟩ := exists_merged hmerge
  have hroot : ∀ u, Steps s w₁ u → s.root < u.functions.size := fun u hu =>
    root_lt_size henters (hp.recorded_steps henters .refl) (hpassed.steps.trans hu)
  refine ⟨g, actuals, w₁, w₂, hread, hcallee, hmerged.taken, fun k a e hk he ht => ?_,
    fun n => ?_, fun k a e x t n hk _ htype hr hx ht hcalled => ?_⟩
  · exact (exists_actual hspelled hstands hpassed.aimed hmerged.taken hk).1 e he ht
  · rw [← hwrites]
    exact hmerged.mem_writes hspelled hstands hpassed.aimed hroot n
  · rw [← hwritten]
    exact hmerged.mem_reads hspelled hstands hpassed.aimed hroot
      (List.mem_of_getElem? hk) htype hr hx
      ht hcalled

/-! ## A function that copies -/

/-- The tree of the address of a variable. -/
def addressNode (name : String) : Node := leading "&" (named name)

/-- The node of a call of `c` with two expressions. -/
def callOfC : NodeInfo := { kind := .call, spelling := "c", arguments := some [0, 1] }

/-- A file with `int x, y` and a function `f` that calls `c(&x, &y)`, beside a configuration with
the text. -/
def configuredBy (text : String) : Files where
  here := "/"
  entries := [("p", .folder [("a.c", .file
    { tree := [intVar "x", intVar "y",
      definedAs "f" [.mk callOfC [addressNode "x", addressNode "y"] none]] }),
    ("config", .folder [("c.json", .file { text })])])]

/-- The entry of a function `c` that reads what is behind `a` and writes what is behind `b`. -/
def copyText : String :=
  "[\x7b\"function_name\": \"c\", \"arguments\": [" ++
    "\x7b\"name\": \"a\", \"type\": \"int *\", \"read\": true\x7d, " ++
    "\x7b\"name\": \"b\", \"type\": \"int *\", \"write\": true\x7d]\x7d]"

/-- The arguments of the entry. -/
def copyArguments : List Argument :=
  [⟨.text "a", "int *", true, false⟩, ⟨.text "b", "int *", false, true⟩]

/-- The project of a configuration, and in `f` the start of the body and the state after the
call. -/
def configuredRun? (text : String) : Option (Project × Scope × Walk × Walk) :=
  (after? (prepare (configuredBy text) ((configuredBy text).absolute "p") {})).bind fun p =>
    (Analysis.enter? p.types 0 p.analysis).bind fun e =>
      (after? (walk p.analysis.index e.1 (.mk callOfC [addressNode "x", addressNode "y"] none)
        e.2)).map fun w' => (p, e.1, e.2, w')

theorem configured_call_copies : ∃ p s w w' g actuals w₁ w₂,
    Reached (configuredBy copyText) "p" p ∧
    Config.Configures (configuredBy copyText) ((configuredBy copyText).absolute "p") "c"
      copyArguments ∧
    Analysis.Enters p.types 0 p.analysis s w ∧
    walk p.analysis.index s (.mk callOfC [addressNode "x", addressNode "y"] none) w =
      .ok ⟨⟩ w' ∧
    noted s .write w = {} ∧ noted s .read w' = ⟨["x"]⟩ ∧ noted s .write w' = ⟨["y"]⟩ ∧
    Applied s g "c" copyArguments [addressNode "x", addressNode "y"] actuals w w₁ w₂ w' := by
  have hconfigures : Config.Configures (configuredBy copyText)
      ((configuredBy copyText).absolute "p") "c" copyArguments := by decide +kernel
  have hrun : ((configuredRun? copyText).map fun r =>
      (((r.1.record? 0).bind Function.body).isSome, noted r.2.1 .write r.2.2.1,
        noted r.2.1 .read r.2.2.2, noted r.2.1 .write r.2.2.2)) =
      some (true, {}, ⟨["x"]⟩, ⟨["y"]⟩) := by decide +kernel
  obtain ⟨r, hr, hchecks⟩ := Option.map_eq_some_iff.mp hrun
  simp only [Prod.mk.injEq] at hchecks
  obtain ⟨hbody, hbefore, hreads, hwrites⟩ := hchecks
  obtain ⟨p, hprepare, hr⟩ := ok_of_bind hr
  obtain ⟨⟨s, w⟩, henter, hr⟩ := Option.bind_eq_some_iff.mp hr
  obtain ⟨w', hwalk, rfl⟩ := ok_of_map hr
  have hp : Reached (configuredBy copyText) "p" p := .read hprepare
  have henters := Analysis.enters_of_enter? henter
  obtain ⟨g, actuals, w₁, w₂, _, _, happlied⟩ := configured_call hp hconfigures henters hbody .refl
    rfl rfl hwalk
  exact ⟨p, s, w, w', g, actuals, w₁, w₂, hp, hconfigures, henters, hwalk, hbefore,
    hreads, hwrites, happlied⟩

/-- The entry of a function `c` with an argument without a type before the one that is written. -/
def untypedText : String :=
  "[\x7b\"function_name\": \"c\", \"arguments\": [" ++
    "\x7b\"name\": \"a\", \"type\": \"\"\x7d, " ++
    "\x7b\"name\": \"b\", \"type\": \"int *\", \"write\": true\x7d]\x7d]"

/-- An argument with an empty type does not count, so the next one is matched with its expression:
in `c(&x, &y)` the flag of `b` is applied to `x`. -/
theorem untyped_argument_shifts : ∃ p s w w', Reached (configuredBy untypedText) "p" p ∧
    Analysis.Enters p.types 0 p.analysis s w ∧
    walk p.analysis.index s (.mk callOfC [addressNode "x", addressNode "y"] none) w =
      .ok ⟨⟩ w' ∧
    noted s .write w = {} ∧ noted s .write w' = ⟨["x"]⟩ := by
  have hrun : ((configuredRun? untypedText).map fun r =>
      (noted r.2.1 .write r.2.2.1, noted r.2.1 .write r.2.2.2)) = some ({}, ⟨["x"]⟩) := by
    decide +kernel
  obtain ⟨r, hr, hchecks⟩ := Option.map_eq_some_iff.mp hrun
  simp only [Prod.mk.injEq] at hchecks
  obtain ⟨p, hprepare, hr⟩ := ok_of_bind hr
  obtain ⟨⟨s, w⟩, henter, hr⟩ := Option.bind_eq_some_iff.mp hr
  obtain ⟨w', hwalk, rfl⟩ := ok_of_map hr
  exact ⟨p, s, w, w', .read hprepare, Analysis.enters_of_enter? henter,
    hwalk, hchecks.1, hchecks.2⟩

end Project

end Footprint
