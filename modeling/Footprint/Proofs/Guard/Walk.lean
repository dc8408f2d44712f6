import Footprint.Proofs.Guard.Basic
import Footprint.Proofs.Places

/-!
# The walk keeps a guard

The walk over any tree keeps a guard, if the steps that it is put together from
do.  There is one lemma for each function of the walk, and an induction over
trees for the recursive ones.  The functions that give a name or an address back
give one that the run may come by.
-/

namespace Footprint.Walk

open Node

/-- A name under a parameter becomes a name under what is passed for it, or there is a fault. -/
theorem nameUnder_cases {asValue : Bool} {actual : Actual} {argument pointee name : String} :
    (∀ found, nameUnder asValue actual argument pointee name = .ok (some (some found)) →
      ∃ rest, PathEnd rest ∧ (found = pointee ++ rest ∨ found = argument ++ rest)) ∧
    ∀ e, nameUnder asValue actual argument pointee name = .error e → e = .nameNotText := by
  rw [nameUnder]
  split
  · refine ⟨?_, fun _ h => nomatch h⟩
    rintro _ ⟨⟩
    exact ⟨"", pathEnd_empty, .inl String.append_empty.symm⟩
  · split
    · next hstarts =>
      refine ⟨?_, fun _ h => nomatch h⟩
      rintro _ ⟨⟩
      exact ⟨_, pathEnd_of_starts hstarts, .inl rfl⟩
    · split
      · split
        · refine ⟨fun _ h => ?_, fun _ h => nomatch h⟩
          split at h
          · cases h
            exact ⟨"", pathEnd_empty, .inr String.append_empty.symm⟩
          · cases h
        · split
          · next hstarts =>
            refine ⟨?_, fun _ h => nomatch h⟩
            rintro _ ⟨⟩
            exact ⟨_, pathEnd_of_starts hstarts, .inr rfl⟩
          · exact ⟨(by rintro _ ⟨⟩), (by rintro _ ⟨⟩)⟩
      · refine ⟨(by rintro _ ⟨⟩), ?_⟩
        rintro _ ⟨⟩
        rfl

namespace Guard

variable {G : Guard} {calls : CallIndex} {s : Scope} {m : Memory} {U : Use → Prop}

/-! ## Names and pointers -/

section Lookup

variable (h : G.Finds s)

include h

theorem Finds.nameAt? {a : Int} (ha : G.address m a) : G.Passes m G.Named (nameAt? a) := by
  refine .bind (h.variableAt ha) fun v _ _ hv => ?_
  cases v with
  | none => exact .pure fun _ _ => named_none
  | some v => exact .pure fun _ hl => named_some (G.later_name (hv _ _ rfl).1 hl)

theorem Finds.nameAtTarget? {t : Option Int} (ht : G.Target t m) :
    G.Passes m G.Named (nameAtTarget? t) := by
  cases t with
  | none => exact .pure fun _ _ => named_none
  | some a => exact h.nameAt? (ht a rfl)

theorem Finds.shareAt {a : Int} (ha : G.address m a) : G.PassesAny m (shareAt s a) := by
  refine .bind (h.variableAt ha) fun v _ _ _ => ?_
  cases v with
  | none => exact .done
  | some v => exact h.share _

theorem Finds.share? (n : Option String) : G.PassesAny m (share? s n) := by
  cases n with
  | none => exact .done
  | some name => exact h.share name

variable {n : Option String} {key base : String}

theorem Finds.pointerKey? (hn : G.Named n m) : G.Passes m G.Named (pointerKey? s n) := by
  cases n with
  | none => exact .pure fun _ _ => named_none
  | some name => exact h.pointerKey (hn name rfl)

theorem Finds.variableOf (hk : G.name m key) : G.Passes m G.Seen (variableOf s key) := by
  refine .bind (h.addressOf hk) fun a _ _ ha => ?_
  cases a with
  | none => exact .pure fun _ _ _ _ hv => nomatch hv
  | some a => exact h.variableAt (ha a rfl)

theorem Finds.currentTarget (key : String) : G.Passes m G.Target (currentTarget key) :=
  .get_bind fun _ hw _ => .pure fun _ hl => Target.later hl (h.target hw key)

theorem Finds.targetOf (hk : G.name m key) : G.Passes m G.Target (Walk.targetOf s key) := by
  rw [Walk.targetOf]
  split
  · exact .pure fun _ _ => target_none
  · refine .bind (h.currentTarget key) fun a _ hl ha => ?_
    cases a with
    | some a => exact .pure fun _ hl => Target.later hl ha
    | none =>
      exact .bind (h.variableOf (G.later_name hk hl)) fun _ _ _ hv =>
        .pure fun _ hl => Target.later hl (Seen.remembered hv)

theorem Finds.targetOfName (hn : G.Named n m) :
    G.Passes m G.Target (targetOfName s n) := by
  refine .bind (h.pointerKey? hn) fun key _ _ hkey => ?_
  cases key with
  | none => exact .pure fun _ _ => target_none
  | some key => exact h.targetOf (hkey key rfl)

theorem Finds.pointedName? {name : String} (hn : G.name m name) :
    G.Passes m G.Named (pointedName? s name) := by
  refine .bind (h.targetOfName (named_some hn)) fun a _ _ ha => ?_
  cases a with
  | none => exact .pure fun _ _ => named_none
  | some a => exact h.nameAt? (ha a rfl)

theorem Finds.name_member (hb : G.name m base) (member : String) :
    G.name m (base ++ "." ++ member) := by
  rw [String.append_assoc]
  exact h.extend hb (pathEnd_member member)

theorem Finds.name_element (hb : G.name m base) (index : String) :
    G.name m (base ++ "[" ++ index ++ "]") := by
  rw [String.append_assoc, String.append_assoc]
  exact h.extend hb (pathEnd_index _)

theorem Finds.elementName (hb : G.name m base) (index : Node) :
    G.Passes m (fun n m' => G.name m' n) (elementName s base index) := by
  refine .bind (h.pointedName? hb) fun name _ hl hname => ?_
  cases name with
  | none => exact .pure fun _ hl' => h.name_element (G.later_name hb (G.trans hl hl')) _
  | some name => exact .pure fun _ hl' => G.later_name (hname name rfl) hl'

/-! ## Which variable an expression means -/

omit h

mutual

/-- Access paths are names that the guard knows. -/
theorem Finds.accessName (h : G.Finds s) (m : Memory) :
    ∀ n : Node, n.Every G.node → G.Passes m G.Named (Walk.accessName s n)
  | .mk i cs d, hn => by
    have hi := hn.1
    have hcs := hn.2
    unfold Walk.accessName
    split
    · exact h.firstAccess m cs hcs
    · split
      · exact h.accessName m _ hcs.1
      · exact .pure fun _ _ => named_none
    · split
      · exact h.accessName m _ hcs.1
      · exact .pure fun _ _ => named_none
    · split
      · split
        · exact h.accessName m _ hcs.1
        · exact .pure fun _ _ => named_none
      · exact .pure fun _ _ => named_none
    · next hk => exact .pure fun _ _ => named_some (h.spelled hi hk)
    · split
      · refine .bind (h.accessName m _ hcs.1) fun name _ _ hname => ?_
        split
        · exact .pure fun _ _ => named_none
        · next base hbase =>
          have hb := Named.of_filter hname hbase
          refine .bind (h.pointedName? hb) fun pointed _ hl hpointed => ?_
          refine .pure fun _ hl' => named_some (h.name_member ?_ _)
          cases pointed with
          | none => exact G.later_name hb (G.trans hl hl')
          | some name => exact G.later_name (hpointed name rfl) hl'
      · exact .pure fun _ _ => named_none
    · split
      · refine .bind (h.accessName m _ hcs.1) fun name _ _ hname => ?_
        split
        · exact .pure fun _ _ => named_none
        · next base hbase =>
          exact .bind (h.elementName (Named.of_filter hname hbase) _) fun _ _ _ hname =>
            .pure fun _ hl => named_some (G.later_name hname hl)
      · exact .pure fun _ _ => named_none
    · exact .pure fun _ _ => named_none
termination_by n => sizeOf n

theorem Finds.firstAccess (h : G.Finds s) (m : Memory) :
    ∀ ns : List Node, EveryIn G.node ns → G.Passes m G.Named (firstAccess s ns)
  | [], _ => .pure fun _ _ => named_none
  | n :: ns, hns => by
    refine .bind (h.accessName m n hns.1) fun name m' _ hname => ?_
    split
    · next found hfound =>
      exact .pure fun _ hl => named_some (G.later_name (Named.of_filter hname hfound) hl)
    · exact h.firstAccess m' ns hns.2
termination_by ns => sizeOf ns

end

mutual

/-- So are the names of pointers. -/
theorem Finds.pointerName (h : G.Finds s) (m : Memory) :
    ∀ n : Node, n.Every G.node → G.Passes m G.Named (Walk.pointerName s n)
  | .mk i cs d, hn => by
    have hcs := hn.2
    unfold Walk.pointerName
    split
    · exact h.firstPointer m cs hcs
    · exact h.firstPointer m cs hcs
    · exact h.firstPointer m cs hcs
    · exact h.firstPointer m cs hcs
    · split
      · exact h.pointerName m _ hcs.1
      · exact .pure fun _ _ => named_none
    · split
      · exact h.pointerName m _ hcs.1
      · exact .pure fun _ _ => named_none
    · split
      · exact h.pointerName m _ hcs.1
      · exact .pure fun _ _ => named_none
    · split
      · split
        · exact h.pointerName m _ hcs.1
        · exact .pure fun _ _ => named_none
      · exact .pure fun _ _ => named_none
    · exact h.accessName m _ hn
    · next hk => exact .pure fun _ _ => named_some (h.spelled hn.1 hk)
    · exact .pure fun _ _ => named_none
termination_by n => sizeOf n

theorem Finds.firstPointer (h : G.Finds s) (m : Memory) :
    ∀ ns : List Node, EveryIn G.node ns → G.Passes m G.Named (firstPointer s ns)
  | [], _ => .pure fun _ _ => named_none
  | n :: ns, hns => by
    refine .bind (h.pointerName m n hns.1) fun name m' _ hname => ?_
    split
    · next found hfound =>
      exact .pure fun _ hl => named_some (G.later_name (Named.of_filter hname hfound) hl)
    · exact h.firstPointer m' ns hns.2
termination_by ns => sizeOf ns

end

include h

omit h in
theorem Passes.targetAt {x : WalkM (Option Nat)} (hx : G.Passes m G.Found x) :
    G.Passes m G.Target (do return (← x).map Int.ofNat) := by
  refine .bind hx fun found _ _ hfound => .pure fun _ hl a ha => ?_
  obtain ⟨c, hc, rfl⟩ := Option.map_eq_some_iff.mp ha
  exact G.later_address (hfound c hc) hl

theorem Finds.addressIn? (hn : G.Named n m) : G.Passes m G.Target (Walk.addressIn? s n) := by
  rw [Walk.addressIn?]
  split
  · next name hname => exact (h.addressIn (Named.of_filter hn hname)).targetAt
  · exact .pure fun _ _ => target_none

theorem Finds.bareTarget (n : Node) (hn : n.Every G.node) :
    G.Passes m G.Target (Walk.bareTarget s n) := by
  obtain ⟨i, cs, d⟩ := n
  rw [Walk.bareTarget]
  split
  · split
    · next c rest hc =>
      have hcs : cs = c :: rest := hc
      rw [hcs] at hn
      exact .bind (h.accessName m c hn.2.1) fun _ _ _ hname => h.addressIn? hname
    · exact .pure fun _ _ => target_none
  · refine .bind (h.pointerName m _ hn) fun name _ _ hname =>
      .bind (h.pointerKey? hname) fun key _ _ hkey => ?_
    cases key with
    | some key => exact h.targetOf (hkey key rfl)
    | none =>
      dsimp only
      split
      · next hk =>
        refine .bind (h.targetOf (h.spelled hn.1 hk)) fun a _ _ ha => ?_
        cases a with
        | some a => exact .pure fun _ hl => Target.later hl ha
        | none => exact h.addressIn? (named_some (h.spelled hn.1 hk))
      · exact .pure fun _ _ => target_none

/-- The value of a pointer is a target that the guard knows. -/
theorem Finds.pointerTarget :
    ∀ n : Node, n.Every G.node → G.Passes m G.Target (Walk.pointerTarget s n)
  | .mk i cs d, hn => by
    unfold Walk.pointerTarget
    split
    · split
      · exact Finds.pointerTarget _ hn.2.1
      · exact .pure fun _ _ => target_none
    · split
      · exact Finds.pointerTarget _ hn.2.1
      · exact .pure fun _ _ => target_none
    · split
      · exact Finds.pointerTarget _ hn.2.1
      · exact .pure fun _ _ => target_none
    · exact h.bareTarget _ hn

theorem Finds.derefTarget {n : Node} (hn : n.Every G.node) :
    G.Passes m G.Target (derefTarget s n) :=
  .bind (h.pointerName m n hn) fun _ _ _ hname => h.targetOfName hname

theorem Finds.pointerBehind {n : Option Node} (hn : ∀ c, n = some c → c.Every G.node) :
    G.Passes m G.Named (pointerBehind s n) := by
  cases n with
  | none => exact .pure fun _ _ => named_none
  | some n =>
    refine .bind (h.derefTarget (hn n rfl)) fun a _ _ ha => ?_
    cases a with
    | none => exact .pure fun _ _ => named_none
    | some a =>
      refine .bind (h.variableAt (ha a rfl)) fun v _ _ hv => ?_
      cases v with
      | none => exact .pure fun _ _ => named_none
      | some v =>
        dsimp only
        split
        · exact .pure fun _ hl => named_some (G.later_name (hv _ _ rfl).1 hl)
        · exact .pure fun _ _ => named_none

theorem Finds.assignedPointer {left : Node} (hn : left.Every G.node) :
    G.Passes m G.Named (assignedPointer s left) := by
  have hbehind : G.Passes m G.Named (pointerBehindLeft s left) := by
    rw [pointerBehindLeft]
    split
    · obtain ⟨i, cs, d⟩ := left
      exact h.pointerBehind (every_head? hn.2)
    · exact .pure fun _ _ => named_none
  refine .bind hbehind fun key _ _ hkey => ?_
  cases key with
  | some key => exact .pure fun _ hl => Named.later hl hkey
  | none => exact .bind (h.accessName _ left hn) fun _ _ _ hname => h.pointerKey? hname

/-! ## Calls -/

theorem Finds.actualOf? (callee : Function) (param : Label) {argument : Node}
    (hn : argument.Every G.node) :
    G.Passes m G.Passed (Walk.actualOf? s callee param argument) := by
  rw [Walk.actualOf?]
  split
  · exact .pure fun _ _ _ hx => nomatch hx
  · refine .get_bind fun w hw _ => ?_
    dsimp only
    split
    · refine .bind (h.pointerTarget _ hn) fun t _ _ ht => ?_
      refine .bind (h.accessName _ _ hn) fun name _ hl₁ hname => ?_
      refine .bind (h.share? name) fun _ _ hl₂ _ => .pure fun _ hl₃ x hx => ?_
      cases hx
      have hl := G.trans hl₂ hl₃
      exact ⟨Target.later (G.trans hl₁ hl) ht, Named.later hl hname⟩
    · exact .pure fun _ _ _ hx => nomatch hx

/-- So is what is passed for parameters. -/
theorem Finds.actualsOf (callee : Function) :
    ∀ {m : Memory} {found : List Actual} (args : List (Label × Node)), G.Actuals found m →
      (∀ e ∈ args, e.2.Every G.node) →
      G.Passes m G.Actuals (actualsOf s callee found args)
  | _, _, [], hf, _ => .pure fun _ hl => Actuals.later hl hf
  | _, _, (param, argument) :: rest, hf, hargs => by
    have hrest : ∀ e ∈ rest, e.2.Every G.node := fun e he => hargs e (List.mem_cons_of_mem _ he)
    refine .bind (h.actualOf? callee param (hargs _ (List.mem_cons_self ..))) fun x _ hl hx => ?_
    cases x with
    | none => exact Finds.actualsOf callee rest (Actuals.later hl hf) hrest
    | some x =>
      exact Finds.actualsOf callee rest (Actuals.put (hx x rfl) (Actuals.later hl hf)) hrest

theorem Finds.nameInCaller (asValue : Bool) (name : String) :
    ∀ {m : Memory} {xs : List Actual}, G.Actuals xs m →
      G.Passes m G.Named (Walk.nameInCaller asValue name xs)
  | _, [], _ => .pure fun _ _ => named_none
  | m, x :: xs, hxs => by
    obtain ⟨hx, hrest⟩ := List.forall_mem_cons.mp hxs
    rw [Walk.nameInCaller]
    split
    · exact Finds.nameInCaller asValue name hrest
    · next argument hargument =>
      have hargument := Named.of_filter hx.2 hargument
      refine .bind (h.nameAtTarget? hx.1) fun pointee m₁ hl₁ hpointee => ?_
      have hfound : G.Passes m₁ (fun found m => ∀ n, found = some (some n) → G.name m n)
          (orFault (nameUnder asValue x argument (pointee.getD argument) name)) := by
        refine ⟨fun w hw hl₂ => Ends.orFault (fun found hok => ⟨hw, G.refl _, ?_⟩) fun e he => ?_⟩
        · rintro n rfl
          obtain ⟨rest, hrest, rfl | rfl⟩ := nameUnder_cases.1 n hok
          · refine h.extend ?_ hrest
            cases pointee with
            | none => exact G.later_name hargument (G.trans hl₁ hl₂)
            | some pointee => exact G.later_name (hpointee pointee rfl) hl₂
          · exact h.extend (G.later_name hargument (G.trans hl₁ hl₂)) hrest
        · rw [nameUnder_cases.2 e he]
          exact G.stop hw
      refine .bind hfound fun found m₂ hl₂ hfound => ?_
      cases found with
      | none => exact Finds.nameInCaller asValue name (Actuals.later (G.trans hl₁ hl₂) hrest)
      | some found => exact .pure fun _ hl n hn => G.later_name (hfound n (by rw [hn])) hl

section Pointers

variable {xs : List Actual} (hxs : G.Actuals xs m)

include hxs

variable {t : Option Int}

theorem Finds.targetInCaller (start : String) (ht : G.Target t m) :
    G.Passes m G.Target (Walk.targetInCaller s start xs t) := by
  rw [Walk.targetInCaller]
  split
  · exact .pure fun _ _ => target_none
  · next a ha =>
    have ha := ht a (Option.filter_eq_some_iff.mp ha).1
    refine .bind (h.nameAt? ha) fun name _ hl hname => ?_
    cases name with
    | none => exact .pure fun _ _ => target_none
    | some name =>
      dsimp only
      split
      · exact .bind (h.nameInCaller true _ (Actuals.later hl hxs)) fun _ _ _ hn => h.addressIn? hn
      · exact (h.addressOf (hname name rfl)).targetAt

theorem Finds.pointerInCaller (start : String) {name : String} (hn : G.name m name) :
    G.Passes m G.Named (Walk.pointerInCaller start xs name) := by
  rw [Walk.pointerInCaller]
  split
  · exact h.nameInCaller false _ hxs
  · exact .pure fun _ hl => named_some (G.later_name hn hl)

theorem Finds.mergePointer
    (hmove : ∀ {m key t}, G.name m key → G.Target t m → G.PassesAny m (Walk.repoint s key t))
    (callee : Function) {pointer : Nat} (hp : G.address m pointer) (ht : G.Target t m) :
    G.PassesAny m (Walk.mergePointer s callee xs pointer t) := by
  rw [Walk.mergePointer]
  refine .bind (h.variableAt hp) fun v _ hl₁ hv => ?_
  cases v with
  | none => exact .done
  | some v =>
    dsimp only
    split
    · exact .done
    · refine .bind (h.pointerInCaller (Actuals.later hl₁ hxs) _ (hv _ _ rfl).1)
        fun name _ hl₂ hname => ?_
      have hl := G.trans hl₁ hl₂
      split
      · exact .done
      · next found hfound =>
        have hfound := Named.of_filter hname hfound
        refine .bind (h.targetInCaller (Actuals.later hl hxs) _ (Target.later hl ht))
          fun _ _ hl₃ ht' => ?_
        refine .bind (h.pointerKey (G.later_name hfound hl₃)) fun key _ hl₄ hkey =>
          hmove ?_ (Target.later hl₄ ht')
        cases key with
        | none => exact G.later_name hfound (G.trans hl₃ hl₄)
        | some key => exact hkey key rfl

end Pointers

end Lookup

/-! ## Uses -/

section Uses

variable (h : G.Marks s U)

include h

variable {uses : List Use}

theorem Marks.markEach {a : Int} (ha : G.address m a) (hu : ∀ use ∈ uses, U use) :
    G.PassesAny m (uses.forM fun use => Walk.mark s use a) :=
  .forM fun use hmem => h.mark (hu use hmem) ha

theorem Marks.markNamed {name : String} (hn : G.name m name)
    (hu : ∀ use ∈ uses, U use) : G.PassesAny m (Walk.markNamed s uses name) := by
  rw [Walk.markNamed]
  split
  · exact .done
  · refine .bind (h.addressIn hn) fun a _ _ ha => ?_
    cases a with
    | none => exact .done
    | some a => exact h.markEach (ha a rfl) hu

theorem Marks.assignDeref (hu : ∀ use ∈ uses, U use) {n : Option Node}
    (hn : ∀ c, n = some c → c.Every G.node) : G.PassesAny m (Walk.assignDeref s uses n) := by
  cases n with
  | none => exact .done
  | some n =>
    refine .bind (h.pointerName m n (hn n rfl)) fun name _ _ hname =>
      .bind (h.pointerKey? hname) fun key _ _ hkey => ?_
    cases key with
    | none => exact .done
    | some key =>
      refine .bind (h.currentTarget key) fun a _ _ ha => ?_
      cases a with
      | none => exact .done
      | some a => exact h.markEach (ha a rfl) hu

theorem Marks.assignNamed (hu : ∀ use ∈ uses, U use) {n : Node}
    (hn : n.Every G.node) : G.PassesAny m (Walk.assignNamed s uses n) := by
  refine .bind (h.accessName m n hn) fun name _ _ hname => ?_
  cases name with
  | none => exact .done
  | some name =>
    refine .bind (h.pointerKey (hname name rfl)) fun key _ hl _ => ?_
    cases key with
    | some key => exact .done
    | none => exact h.markNamed (G.later_name (hname name rfl) hl) hu

section Callee

variable {use : Use} (hu : U use)

include hu

variable {x : Option Actual} {xs : List Actual} {name : String}

theorem Marks.mergeElement (hx : G.Passed x m) (index : String) :
    G.PassesAny m (Walk.mergeElement s use x index) := by
  rw [Walk.mergeElement]
  split
  · exact .done
  · next target htarget =>
    have ha := Passed.target hx target htarget
    refine .bind (h.nameAt? ha) fun base _ hl₁ hbase => ?_
    split
    · exact .done
    · next name hfound =>
      have hn : G.name _ name :=
        Named.of_filter
          (Named.orElse (Named.filter (Named.later hl₁ (Passed.name hx))) hbase) hfound
      refine .bind (h.share name) fun _ _ hl₂ _ =>
        .bind (h.addressIn (h.name_element (G.later_name hn hl₂) index)) fun b _ hl₃ hb => ?_
      cases b with
      | none => exact h.mark hu (G.later_address ha (G.trans hl₁ (G.trans hl₂ hl₃)))
      | some b => exact h.mark hu (hb b rfl)

theorem Marks.mergePointee (hx : G.Passed x m) : G.PassesAny m (Walk.mergePointee s use x) := by
  rw [Walk.mergePointee]
  split
  · next target htarget =>
    exact .bind (h.shareAt (Passed.target hx target htarget)) fun _ _ hl₁ _ =>
      .bind (h.share? _) fun _ _ hl₂ _ =>
        h.mark hu (G.later_address (Passed.target hx target htarget) (G.trans hl₁ hl₂))
  · split
    · exact .done
    · next n hn =>
      have hn := Named.of_filter (Passed.name hx) hn
      refine .bind (h.share n) fun _ _ hl _ =>
        .bind (h.addressIn (G.later_name hn hl)) fun a _ _ ha => ?_
      cases a with
      | none => exact .done
      | some a => exact h.markItself hu (ha a rfl)

theorem Marks.mergePart (hxs : G.Actuals xs m) (name : String) :
    G.PassesAny m (Walk.mergePart s use xs name) := by
  rw [Walk.mergePart]
  have hx := hxs.actualFor? (Text.before "." (Text.before "[" name))
  split
  · exact .done
  · next n hn =>
    have hn := Named.of_filter (Passed.name hx) hn
    refine .bind (h.share n) fun _ _ hl₁ _ => ?_
    have hpart := h.extend (G.later_name hn hl₁) (pathEnd_dropFirst name)
    refine .bind (h.addressIn hpart) fun a _ hl₂ ha => ?_
    cases a with
    | some a => exact h.mark hu (ha a rfl)
    | none =>
      dsimp only
      split
      · next target htarget =>
        exact h.mark hu (G.later_address (Passed.target hx target htarget) (G.trans hl₁ hl₂))
      · exact .done

theorem Marks.mergeGlobal (hn : G.name m name) :
    G.PassesAny m (Walk.mergeGlobal s use name) := by
  refine .bind (h.addressOf hn) fun a _ _ ha => ?_
  cases a with
  | none => exact .done
  | some a =>
    exact .bind (h.share name) fun _ _ hl _ => h.mark hu (G.later_address (ha a rfl) hl)

/-- A use in a callee passes into the caller. -/
theorem Marks.mergeUse (hxs : G.Actuals xs m) (callee : Function)
    (hn : Text.starts (ownerStart callee.name.plain) name = false → G.name m name) :
    G.PassesAny m (Walk.mergeUse s callee xs use name) := by
  rw [Walk.mergeUse]
  split
  · split
    · exact h.mergeElement hu (hxs.actualFor? _) _
    · split
      · exact h.mergePointee hu (hxs.actualFor? _)
      · exact h.mergePart hu hxs _
  · next hstarts => exact h.mergeGlobal hu (hn (Bool.eq_false_iff.mpr hstarts))

end Callee

/-! ## Steps of arguments -/

section Reads

variable (hr : U .read)

include hr

theorem Marks.readNamed (i : NodeInfo) {name : String} (hn : G.name m name) :
    G.PassesAny m (Walk.readNamed s i name) := by
  refine .bind (h.addressIn hn) fun a _ _ ha => ?_
  cases a with
  | none => exact .done
  | some a =>
    refine .bind (h.variableAt (ha a rfl)) fun v _ hl _ => ?_
    cases v with
    | none => exact .done
    | some v =>
      dsimp only
      split
      · exact .done
      · exact h.mark hr (G.later_address (ha a rfl) hl)

theorem Marks.readDeref {n : Option Node} (hn : ∀ c, n = some c → c.Every G.node) :
    G.PassesAny m (Walk.readDeref s n) := by
  cases n with
  | none => exact .done
  | some n =>
    refine .bind (h.derefTarget (hn n rfl)) fun a _ _ ha => ?_
    cases a with
    | none => exact .done
    | some a => exact h.mark hr (ha a rfl)

theorem Marks.readAccess {n : Node} (hn : n.Every G.node) :
    G.PassesAny m (Walk.readAccess s n) := by
  refine .bind (h.accessName m n hn) fun name _ _ hname => ?_
  cases name with
  | none => exact .done
  | some name =>
    refine .bind (h.addressIn (hname name rfl)) fun a _ hl₁ ha => ?_
    cases a with
    | none => exact .done
    | some a =>
      refine .bind (h.variableAt (ha a rfl)) fun v _ hl₂ _ => ?_
      cases v with
      | none => exact .done
      | some v =>
        dsimp only
        split
        · exact .done
        · exact h.markNamed (G.later_name (hname name rfl) (G.trans hl₁ hl₂)) fun _ hu =>
            List.mem_singleton.mp hu ▸ hr

omit h hr

variable {steps : List ((Int × Int) × WalkM Unit)}

theorem passes_inOrder
    (hs : ∀ e ∈ steps, G.PassesAny m e.2) : G.PassesAny m ((inOrder steps).forM id) := by
  refine .forM fun step hstep => ?_
  obtain ⟨e, he, rfl⟩ := mem_inOrder.mp hstep
  exact hs e he

theorem passes_stepsAt (hs : ∀ e ∈ steps, G.PassesAny m e.2) (places : List Nat) :
    G.PassesAny m ((stepsAt steps places).forM id) := by
  refine .forM fun step hstep => ?_
  obtain ⟨p, _, hp⟩ := List.mem_filterMap.mp hstep
  obtain ⟨e, he, rfl⟩ := Option.map_eq_some_iff.mp hp
  exact hs e (List.mem_of_getElem? he)

mutual

/-- The reads in an argument pass. -/
theorem Marks.readArgument (h : G.Marks s U) (hr : U .read) (m : Memory) :
    ∀ n : Node, n.Every G.node → G.PassesAny m (Walk.readArgument s n)
  | .mk i cs d, hn => by
    have hcs := hn.2
    unfold Walk.readArgument
    split
    · exact .forM (h.readEach hr m cs hcs)
    · split
      · exact h.readArgument hr m _ hcs.1
      · exact .done
    · split
      · exact h.readArgument hr m _ hcs.1
      · exact .done
    · split
      · exact h.readDeref hr (every_head? hcs)
      · split
        · split
          · split
            · exact h.readArgument hr m _ hcs.1.2.2.1
            · exact .done
          · exact .done
        · refine .bind (h.accessName m _ hn) fun name m₁ _ hname => ?_
          split
          · exact passes_inOrder (h.readEach hr m₁ cs hcs)
          · next found hfound =>
            refine .bind (h.readNamed hr i (Named.of_filter hname hfound)) fun _ m₂ _ _ => ?_
            split
            · split
              · exact h.readArgument hr m₂ _ hcs.1
              · exact .done
            · split
              · exact .bind (h.readArgument hr m₂ _ hcs.1) fun _ m₃ _ _ =>
                  h.readArgument hr m₃ _ hcs.2.1
              · exact .done
            · exact passes_inOrder (h.readEach hr m₂ cs hcs)
termination_by n => sizeOf n

theorem Marks.readEach (h : G.Marks s U) (hr : U .read) (m : Memory) :
    ∀ ns : List Node, EveryIn G.node ns → ∀ e ∈ Walk.readEach s ns, G.PassesAny m e.2
  | [], _, e, he => by simp [Walk.readEach] at he
  | .mk i cs d :: ns, hns, e, he => by
    unfold Walk.readEach at he
    rcases List.mem_cons.mp he with rfl | he
    · exact h.readArgument hr m _ hns.1
    · exact h.readEach hr m ns hns.2 e he
termination_by ns => sizeOf ns

end

end Reads

end Uses

/-! ## The walk -/

/-- A declaration and what follows it. -/
theorem bind_declared {α : Type} (i : NodeInfo) (x y : WalkM α) :
    (do declareLocal s i
        let t ← typeOf i
        if t.shape = .pointer then
          setTarget (ownedName s.name i.spelling) none
          x
        else y) =
      declared s i >>= fun t => if t.shape = .pointer then x else y := by
  simp only [declared, bind_assoc]
  congr 1
  funext _
  congr 1
  funext t
  split
  · next hp => simp only [bind_assoc, pure_bind, if_pos hp]
  · next hp => simp only [pure_bind, if_neg hp]

section Sound

variable (h : G.Sound calls s U)

include h

/-- A pointer takes the target that an expression has. -/
theorem Sound.repointTo {key : String} (hk : G.name m key) {n : Node} (hn : n.Every G.node)
    {x : WalkM Unit} (hx : ∀ m', G.later m m' → G.PassesAny m' x) :
    G.PassesAny m (do let target ← Walk.pointerTarget s n; Walk.repoint s key target; x) :=
  .bind (h.pointerTarget n hn) fun _ _ hl₁ ht =>
    .bind (h.repoint (G.later_name hk hl₁) ht) fun _ _ hl₂ _ => hx _ (G.trans hl₁ hl₂)

variable {arguments : List Node}

/-- A callee passes into the caller as a whole. -/
theorem Sound.mergeCallee {callee : Function} (hc : G.Served m callee)
    (hw : callee.writes.toList ≠ [] → U .write) (hn : ∀ n ∈ arguments, n.Every G.node) :
    G.PassesAny m (Walk.mergeCallee s callee arguments) := by
  have hargs : ∀ e ∈ callee.params.zip arguments, e.2.Every G.node := fun e he =>
    hn e.2 (List.of_mem_zip he).2
  refine .bind (h.actualsOf callee _ (fun _ hx => nomatch hx) hargs) fun xs _ hl₁ hxs => ?_
  refine .bind (.forM fun name hname => h.mergeUse h.reads hxs callee
    ((Served.later hl₁ hc).uses name (.inl hname))) fun _ _ hl₂ _ => ?_
  have hc₂ := Served.later (G.trans hl₁ hl₂) hc
  refine .bind (.forM fun name hname => h.mergeUse (hw (List.ne_nil_of_mem hname))
    (Actuals.later hl₂ hxs) callee (hc₂.uses name (.inr hname))) fun _ _ hl₃ _ => ?_
  refine .forM fun e he => ?_
  obtain ⟨hp, ht⟩ := (Served.later hl₃ hc₂).ends e he
  exact h.mergePointer (Actuals.later (G.trans hl₂ hl₃) hxs) h.repoint callee hp ht

theorem Sound.mergeCall {i : NodeInfo} (hi : G.node i) (hk : i.kind = .call)
    (hn : ∀ n ∈ arguments, n.Every G.node) :
    G.PassesAny m (Walk.mergeCall calls s (calleeName i) arguments) := by
  rw [Walk.mergeCall]
  split
  · exact .done
  · next hname =>
    split
    · exact .done
    · next id hid =>
      refine .get_bind fun w hw _ => ?_
      split
      · exact .done
      · next callee hcallee =>
        obtain ⟨hserved, hwrites⟩ := h.callee hi hk hname hid hw hcallee
        exact h.mergeCallee hserved hwrites hn

end Sound

mutual

/-- The walk over a tree of guarded nodes passes. -/
theorem Sound.walk (h : G.Sound calls s U) (m : Memory) :
    ∀ n : Node, n.Every G.node → G.PassesAny m (Walk.walk calls s n)
  | .mk i cs d, hn => by
    have hcs := hn.2
    unfold Walk.walk
    dsimp only
    split
    case h_7 hk | h_8 hk =>
      split
      · split
        · next hop =>
          have hu := h.assigns hn.1 (.inr ⟨by simp [hk], by simp [hop]⟩)
          refine Passes.bind (h.assignedPointer hcs.1) fun key m₁ _ hkey => ?_
          cases key with
          | some key => exact h.repointTo (hkey key rfl) hcs.2.1 fun m₂ _ => h.walk m₂ _ hcs.2.1
          | none =>
            exact .bind (h.walk m₁ _ hcs.2.1) fun _ m₂ _ _ =>
              h.assign (fun use _ => hu use) m₂ _ hcs.1
        · split
          · next hop =>
            have hu := h.assigns hn.1
              (.inr ⟨by simp [hk], List.mem_cons_of_mem _ (List.contains_iff_mem.mp hop)⟩)
            exact .bind (h.assign (fun use _ => hu use) m _ hcs.1) fun _ m₁ _ _ =>
              h.walk m₁ _ hcs.2.1
          · exact .bind (h.walk m _ hcs.1) fun _ m₁ _ _ => h.walk m₁ _ hcs.2.1
      · exact passes_inOrder (h.walkEach m cs hcs)
    · next hk =>
      split
      · exact .forM (h.walkEach m cs hcs)
      · next hspelling =>
        rw [bind_declared]
        refine Passes.bind (h.declared hn.1 hk (by simpa using hspelling)) fun t m₁ _ hkey => ?_
        split
        · next hp => exact h.walkInit m₁ cs hcs (hkey hp)
        · exact .forM (h.walkEach m₁ cs hcs)
    · next hk =>
      exact .bind (passes_stepsAt (h.readEach h.reads m cs hcs) _) fun _ _ _ _ =>
        h.mergeCall hn.1 hk (Node.every_arguments hn)
    · exact h.readAccess h.reads hn
    · refine Passes.bind (h.readAccess h.reads hn) fun _ m₁ _ _ => ?_
      split
      · exact h.walk m₁ _ hcs.1
      · exact .done
    · refine Passes.bind (h.readAccess h.reads hn) fun _ m₁ _ _ => ?_
      split
      · exact .bind (h.walk m₁ _ hcs.1) fun _ m₂ _ _ => h.walk m₂ _ hcs.2.1
      · exact .done
    · next hk =>
      split
      · exact .done
      · split
        · exact h.readDeref h.reads fun c hc => Option.some.inj hc ▸ hcs.1
        · split
          · split
            · split
              · exact h.walk m _ hcs.1.2.2.1
              · exact .done
            · exact .done
          · split
            · next hop =>
              have hu := h.assigns hn.1 (.inl ⟨hk, by simpa using hop⟩)
              exact h.assign (fun use _ => hu use) m _ hcs.1
            · exact h.walk m _ hcs.1
    · exact passes_inOrder (h.walkEach m cs hcs)
termination_by n => sizeOf n

theorem Sound.assign (h : G.Sound calls s U) {uses : List Use} (hu : ∀ use ∈ uses, U use)
    (m : Memory) : ∀ n : Node, n.Every G.node → G.PassesAny m (Walk.assign calls s uses n)
  | .mk i cs d, hn => by
    have hcs := hn.2
    unfold Walk.assign
    split
    · split
      · exact h.assign hu m _ hcs.1
      · exact .done
    · split
      · exact h.assign hu m _ hcs.1
      · exact .done
    · split
      · exact h.assign hu m _ hcs.1
      · exact .done
    · split
      · exact .bind (h.walk m _ hcs.2.1) fun _ _ _ _ => h.assignNamed hu hn
      · exact h.assignNamed hu hn
    · split
      · exact h.assignDeref hu (every_head? hcs)
      · exact h.assignNamed hu hn
    · exact h.assignNamed hu hn
termination_by n => sizeOf n

theorem Sound.walkInit (h : G.Sound calls s U) {key : String} (m : Memory) :
    ∀ ns : List Node, EveryIn G.node ns → G.name m key →
      G.PassesAny m (Walk.walkInit calls s key ns)
  | [], _, _ => .done
  | .mk i cs d :: ns, hns, hk => by
    unfold Walk.walkInit
    split
    · exact h.walkInit m ns hns.2 hk
    · exact h.repointTo hk hns.1 fun m₁ _ => h.walk m₁ _ hns.1
termination_by ns => sizeOf ns

theorem Sound.walkEach (h : G.Sound calls s U) (m : Memory) :
    ∀ ns : List Node, EveryIn G.node ns → ∀ e ∈ Walk.walkEach calls s ns, G.PassesAny m e.2
  | [], _, e, he => by simp [Walk.walkEach] at he
  | .mk i cs d :: ns, hns, e, he => by
    unfold Walk.walkEach at he
    rcases List.mem_cons.mp he with rfl | he
    · exact h.walk m _ hns.1
    · exact h.walkEach m ns hns.2 e he
termination_by ns => sizeOf ns

end

/-- So does the walk over a body. -/
theorem Sound.walkBody (h : G.Sound calls s U) {body : Node} (hn : body.Every G.node) :
    G.PassesAny m (Walk.walkBody calls s body) := by
  obtain ⟨i, cs, d⟩ := body
  exact passes_inOrder (h.walkEach m cs hn.2)

end Guard

theorem walkEach_eq (calls : CallIndex) (s : Scope) (cs : List Node) :
    walkEach calls s cs = cs.map fun c => (place c.info, walk calls s c) := by
  induction cs with
  | nil => simp [walkEach]
  | cons c cs ih =>
    cases c with
    | mk i ds d => simp [walkEach, ih, info]

end Footprint.Walk
