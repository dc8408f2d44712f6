import Footprint.Proofs.Memory.Reached
import Footprint.Proofs.Types.Agreement

/-!
# What a layout appends

The skeleton of a type says which parts a variable of the type has: a struct its
members, in order, and an array the element that stands for all elements, each
with the skeleton of its own type.  Listed from the front, every part before its
own parts, a skeleton gives one cell for each block of a layout.

Laying out a variable appends the listing of its type (`allocate_lists`).  A part
is given its address before it is laid out, and the addresses of its own parts
are added while it stands there.  So the equation is about what is entered in the
end: a change of a variable can be moved across the cells that follow it.  A name
decides whether an element is laid out.  So the cells must have different names.
-/

namespace Footprint

open Footprint.TypeName

/-- Parts side by side, each with the type it is laid out as and with its own parts. -/
inductive Skeleton where
  | none
  | part (slot : Slot) (type : String) (parts rest : Skeleton)

/-- What a layout says about one block. -/
structure Cell where
  address : Nat
  parent : Nat
  name : String
  type : String
  /-- The addresses of the parts. -/
  parts : List (Slot × Nat)

namespace Skeleton

/-- The number of parts at any depth. -/
def size : Skeleton → Nat
  | .none => 0
  | .part _ _ parts rest => 1 + parts.size + rest.size

/-- The addresses of the parts side by side, if the first one is at `a`. -/
def tops : Skeleton → Nat → List (Slot × Nat)
  | .none, _ => []
  | .part s _ parts rest, a => (s, a) :: rest.tops (a + 1 + parts.size)

/-- The cells of the parts of what is called `name` and is at `parent`, from address `a` on. -/
def cells : Skeleton → String → Nat → Nat → List Cell
  | .none, _, _, _ => []
  | .part s d parts rest, name, parent, a =>
    { address := a, parent, name := name ++ s.suffix, type := d, parts := parts.tops (a + 1) } ::
      (parts.cells (name ++ s.suffix) a (a + 1) ++ rest.cells name parent (a + 1 + parts.size))

/-- The cells of a whole and its parts. -/
def listing (k : Skeleton) (name type : String) (parent a : Nat) : List Cell :=
  { address := a, parent, name, type, parts := k.tops (a + 1) } :: k.cells name a (a + 1)

variable {k : Skeleton} {name type : String} {parent a c : Nat} {e : Cell}

theorem cells_part (s : Slot) (d : String) (parts rest : Skeleton) :
    (part s d parts rest).cells name parent a = parts.listing (name ++ s.suffix) d parent a ++
      rest.cells name parent (a + 1 + parts.size) := rfl

@[simp] theorem length_cells : (k.cells name parent a).length = k.size := by
  induction k generalizing name parent a with
  | none => rfl
  | part s d parts rest ihp ihr =>
    rw [cells, List.length_cons, List.length_append, ihp, ihr, size]
    omega

@[simp] theorem length_listing : (k.listing name type parent a).length = 1 + k.size := by
  rw [listing, List.length_cons, length_cells, Nat.add_comm]

/-- Parts are named under the whole. -/
theorem namedUnder_of_mem (he : e ∈ k.cells name parent a) : Memory.NamedUnder name e.name := by
  induction k generalizing name parent a with
  | none => cases he
  | part s d parts rest ihp ihr =>
    rw [cells, List.mem_cons, List.mem_append] at he
    obtain rfl | he | he := he
    · exact Memory.under_suffix name s
    · exact (Memory.under_suffix name s).trans (ihp he)
    · exact ihr he

/-- What lies within a cell follows it, and the cell is at the address of its place. -/
def Followed (cells : List Cell) (a : Nat) (e : Cell) : Prop :=
  ∃ (k : Skeleton) (before after : List Cell), e.address = a + before.length ∧
    cells = before ++ (k.listing e.name e.type e.parent e.address ++ after)

theorem followed_cells (he : e ∈ k.cells name parent a) :
    Followed (k.cells name parent a) a e := by
  induction k generalizing name parent a with
  | none => cases he
  | part s d parts rest ihp ihr =>
    rw [cells, List.mem_cons, List.mem_append] at he
    obtain rfl | he | he := he
    · exact ⟨parts, [], _, rfl, rfl⟩
    · obtain ⟨k, before, after, haddress, hcells⟩ := ihp he
      refine ⟨k, _ :: before, after ++ rest.cells name parent (a + 1 + parts.size), ?_, by
        rw [cells, hcells, List.cons_append, List.append_assoc, List.append_assoc]⟩
      rw [haddress, List.length_cons]
      omega
    · obtain ⟨k, before, after, haddress, hcells⟩ := ihr he
      refine ⟨k, parts.listing (name ++ s.suffix) d parent a ++ before, after, ?_, ?_⟩
      · rw [haddress, List.length_append, length_listing]
        omega
      · rw [cells_part, hcells, List.append_assoc]

theorem followed_listing (he : e ∈ k.listing name type parent a) :
    Followed (k.listing name type parent a) a e := by
  rcases List.mem_cons.mp he with rfl | he
  · exact ⟨k, [], [], rfl, (List.append_nil _).symm⟩
  · obtain ⟨k', before, after, haddress, hcells⟩ := followed_cells he
    refine ⟨k', _ :: before, after, ?_, by rw [listing, hcells, List.cons_append]⟩
    rw [haddress, List.length_cons]
    omega

/-! ## Parts and parents -/

/-- The parts are those that the cells are for, each under its name. -/
def PartsAre (name : String) (parts : List (Slot × Nat)) (cells : List Cell) : Prop :=
  List.Forall₂ (fun p e => e.address = p.2 ∧ e.name = name ++ p.1.suffix) parts cells

/-- Cells stand at their places, and their parents before them. -/
theorem bounds_of_mem (hparent : parent < a) (he : e ∈ k.cells name parent a) :
    a ≤ e.address ∧ e.address < a + k.size ∧
      (e.parent = parent ∨ a ≤ e.parent ∧ e.parent < a + k.size) := by
  induction k generalizing name parent a with
  | none => cases he
  | part s d parts rest ihp ihr =>
    rw [cells, List.mem_cons, List.mem_append] at he
    rw [size]
    obtain rfl | he | he := he
    · dsimp only
      omega
    · have := ihp (Nat.lt_succ_self a) he
      omega
    · have := ihr (by omega) he
      omega

theorem filter_parent_eq_nil (hparent : parent < a) (hne : c ≠ parent)
    (hout : c < a ∨ a + k.size ≤ c) : (k.cells name parent a).filter (·.parent = c) = [] := by
  refine List.filter_eq_nil_iff.mpr fun e he => ?_
  have := bounds_of_mem hparent he
  rw [decide_eq_true_eq]
  omega

/-- The cells whose parent is the whole are its parts. -/
theorem partsAre_tops (hparent : parent < a) :
    PartsAre name (k.tops a) ((k.cells name parent a).filter (·.parent = parent)) := by
  induction k generalizing a with
  | none => exact .nil
  | part s d parts rest ihp ihr =>
    rw [cells, List.filter_cons_of_pos (by simp), List.filter_append,
      filter_parent_eq_nil (Nat.lt_succ_self a) (Nat.ne_of_lt hparent) (by omega)]
    exact .cons ⟨rfl, rfl⟩ (ihr (by omega))

/-- The cells whose parent a cell is are its parts. -/
theorem partsAre_cells (hparent : parent < a) (he : e ∈ k.cells name parent a) :
    PartsAre e.name e.parts ((k.cells name parent a).filter (·.parent = e.address)) := by
  induction k generalizing name parent a with
  | none => cases he
  | part s d parts rest ihp ihr =>
    have hrest : parent < a + 1 + parts.size := by omega
    have hhead : a ≤ e.address := (bounds_of_mem hparent he).1
    rw [cells, List.mem_cons, List.mem_append] at he
    rw [cells, List.filter_cons_of_neg (by simp; omega), List.filter_append]
    obtain rfl | he | he := he
    · rw [filter_parent_eq_nil hrest (by dsimp only; omega) (by dsimp only; omega), List.append_nil]
      exact partsAre_tops (Nat.lt_succ_self a)
    · have := bounds_of_mem (Nat.lt_succ_self a) he
      rw [filter_parent_eq_nil hrest (by omega) (by omega), List.append_nil]
      exact ihp (Nat.lt_succ_self a) he
    · have := bounds_of_mem hrest he
      rw [filter_parent_eq_nil (Nat.lt_succ_self a) (by omega) (by omega)]
      exact ihr hrest he

theorem partsAre_listing (hparent : parent < a) (he : e ∈ k.listing name type parent a) :
    PartsAre e.name e.parts
      ((k.listing name type parent a).filter (·.parent = e.address)) := by
  have hself := Nat.lt_succ_self a
  rcases List.mem_cons.mp he with rfl | he
  · rw [listing, List.filter_cons_of_neg (by simp; omega)]
    exact partsAre_tops hself
  · have := bounds_of_mem hself he
    rw [listing, List.filter_cons_of_neg (by simp; omega)]
    exact partsAre_cells hself he

end Skeleton

/-! ## Skeletons of types -/

namespace TypeTable

/-- Typedefs name normal forms that are no typedefs. -/
def PlainAliases (T : TypeTable) : Prop :=
  ∀ n w, T.aliases.get? n = some w → normalize w = w ∧ T.aliases.get? w = none

mutual

/-- What is laid out as the type has the parts. -/
inductive HasSkeleton (T : TypeTable) : String → Skeleton → Prop
  /-- A built-in type and a pointer have no parts. -/
  | basic {d : String} (h : T.isBasic d = true) : HasSkeleton T d .none
  /-- An array whose length can be read has one element, which stands for all. -/
  | array {d base : String} {n : Nat} {k : Skeleton} (hbasic : T.isBasic d = false)
      (hbracket : endsInBracket d = true) (hlength : arrayLength (arrayParts d).2 = .ok n)
      (hbase : T.decode (arrayParts d).1 = base) (h : HasSkeleton T base k) :
      HasSkeleton T d (.part .anyElement base k .none)
  /-- A struct of the table has its members, in order. -/
  | record {d : String} {r : Record} {k : Skeleton} (hbasic : T.isBasic d = false)
      (hbracket : endsInBracket d = false) (hr : T.structs.get? d = some r)
      (h : HasMembers T r.members k) : HasSkeleton T d k

/-- The members have the parts. -/
inductive HasMembers (T : TypeTable) : List (String × String) → Skeleton → Prop
  | nil : HasMembers T [] .none
  | cons {t d name : String} {members : List (String × String)} {k rest : Skeleton}
      (hd : T.decode t = d) (h : HasSkeleton T d k) (hrest : HasMembers T members rest) :
      HasMembers T ((t, name) :: members) (.part (.member name) d k rest)

end

end TypeTable

namespace Memory

/-! ## Entering cells -/

/-- The variable of the part that a cell describes. -/
def cellVariable (T : TypeTable) (e : Cell) : Variable :=
  { partVariable T e.name e.type e.address with parts := .ofList e.parts }

/-- The memory with a block and a variable for each cell at its end. -/
def enterAll (T : TypeTable) (m : Memory) (cells : List Cell) : Memory :=
  { m with
    blocks := m.blocks ++ ((cells.zipIdx m.vars.size).map fun e =>
      some { address := e.1.address, parent := e.1.parent, var := e.2 }).toArray
    vars := m.vars ++ (cells.map (cellVariable T)).toArray
    names := cells.foldl (fun t e => t.set e.name e.address) m.names
    next := m.next + cells.length }

/-- The memory with parts of a variable added. -/
def addParts (m : Memory) (id : VarId) (parts : List (Slot × Nat)) : Memory :=
  m.setVar id fun v => { v with parts := parts.foldl (fun t e => t.set e.1 e.2) v.parts }

variable {T : TypeTable} {m : Memory} {id : VarId} {cells cells' : List Cell}

theorem enterAll_append :
    enterAll T m (cells ++ cells') = enterAll T (enterAll T m cells) cells' := by
  simp [enterAll, List.zipIdx_append, Nat.add_assoc]

/-- A name that no cell has keeps its address. -/
theorem address?_enterAll {n : String} (h : ∀ e ∈ cells, e.name ≠ n) :
    (enterAll T m cells).address? n = m.address? n := by
  unfold address? enterAll
  dsimp only
  generalize m.names = names
  induction cells generalizing names with
  | nil => rfl
  | cons e cells ih =>
    obtain ⟨he, hcells⟩ := List.forall_mem_cons.mp h
    rw [List.foldl_cons, ih hcells, Table.get?_set, if_neg he]

theorem modify_append {α : Type} (xs ys : Array α) (i : Nat) (f : α → α) :
    (xs ++ ys).modify i f =
      if i < xs.size then xs.modify i f ++ ys else xs ++ ys.modify (i - xs.size) f := by
  refine Array.ext_getElem? fun j => ?_
  split
  · grind
  · grind

/-- Parts can be added before or after cells are entered. -/
theorem addParts_enterAll (hid : id < m.vars.size) (parts : List (Slot × Nat)) :
    (enterAll T m cells).addParts id parts = enterAll T (m.addParts id parts) cells := by
  unfold addParts setVar enterAll
  dsimp only
  rw [modify_append, if_pos hid, Array.size_modify]

theorem addParts_nil : m.addParts id [] = m := setVar_eq_self rfl

theorem addParts_addParts (parts parts' : List (Slot × Nat)) :
    (m.addParts id parts).addParts id parts' = m.addParts id (parts ++ parts') := by
  unfold addParts setVar
  dsimp only
  congr 1
  refine Array.ext_getElem? fun j => ?_
  rw [Array.getElem?_modify, Array.getElem?_modify, Array.getElem?_modify]
  split
  · rw [Option.map_map]
    simp only [List.foldl_append]
    rfl
  · rfl

/-- The cells can be entered: their names are new, and different. -/
structure Enterable (m : Memory) (cells : List Cell) : Prop where
  next : m.next = m.blocks.size
  pos : 0 < m.next
  fresh : ∀ e ∈ cells, m.address? e.name = none
  nodup : (cells.map Cell.name).Nodup

theorem Enterable.addParts (h : Enterable m cells) (id : VarId) (parts : List (Slot × Nat)) :
    Enterable (m.addParts id parts) cells :=
  ⟨h.next, h.pos, h.fresh, h.nodup⟩

theorem Enterable.left (h : Enterable m (cells ++ cells')) : Enterable m cells where
  next := h.next
  pos := h.pos
  fresh e he := h.fresh e (List.mem_append_left _ he)
  nodup := (List.nodup_append.mp (List.map_append ▸ h.nodup)).1

theorem Enterable.right (h : Enterable m (cells ++ cells')) :
    Enterable (enterAll T m cells) cells' := by
  have hnodup := h.nodup
  rw [List.map_append, List.nodup_append] at hnodup
  refine ⟨by simp [enterAll, h.next], Nat.add_pos_left h.pos _, fun e he => ?_, hnodup.2.1⟩
  rw [address?_enterAll, h.fresh e (List.mem_append_right _ he)]
  intro e' he' heq
  exact hnodup.2.2 _ (List.mem_map_of_mem he') _ (List.mem_map_of_mem he) heq

/-! ## Layouts -/

variable {name : String} {a n : Nat} {k : Skeleton}

/-- Laying out a part enters its listing. -/
def LayoutEnters (T : TypeTable) (n : Nat) (layout : Layout) : Prop :=
  ∀ name t parent m k, T.NestsWithin n (T.decode t) (T.decode t) → T.HasSkeleton (T.decode t) k →
    Enterable m (k.listing name (T.decode t) parent m.next) →
    layout name t parent m = .ok m.next (enterAll T m (k.listing name (T.decode t) parent m.next))

section Parts

variable {layout : Layout} (hlayout : LayoutEnters T n layout)

include hlayout

/-- A part is given its address, and then laid out. -/
theorem part_enters {α : Type} {f : MemM α} {s : Slot} {t : String} {parts : Skeleton}
    (hid : id < m.vars.size) (hn : T.NestsWithin n (T.decode t) (T.decode t))
    (hparts : T.HasSkeleton (T.decode t) parts)
    (h : Enterable m (parts.listing (name ++ s.suffix) (T.decode t) a m.next)) :
    (do
      setPart id s m.next
      let _ ← layout (name ++ s.suffix) t a
      f) m =
      f ((enterAll T m (parts.listing (name ++ s.suffix) (T.decode t) a m.next)).addParts id
        [(s, m.next)]) := by
  have hrun := hlayout (name ++ s.suffix) t a (m.addParts id [(s, m.next)]) parts hn hparts
    (h.addParts id _)
  rw [addParts_enterAll hid]
  exact (bind_of_ok rfl).trans (bind_of_ok hrun)

/-- The members of a struct are laid out one after the other. -/
theorem allocateMembers_enters {members : List (String × String)} (hk : T.HasMembers members k)
    (hn : ∀ e ∈ members, T.NestsWithin n (T.decode e.1) (T.decode e.1)) (hid : id < m.vars.size)
    (h : Enterable m (k.cells name a m.next)) : allocateMembers layout name a id members m =
      .ok ⟨⟩ ((enterAll T m (k.cells name a m.next)).addParts id (k.tops m.next)) := by
  induction members generalizing k m with
  | nil =>
    cases hk
    rw [Skeleton.tops, addParts_nil, Skeleton.cells]
    simp [enterAll]
    rfl
  | cons e members ih =>
    cases hk with
    | @cons t _ member _ parts rest hd hparts hrest =>
      subst hd
      rw [Skeleton.cells_part] at h ⊢
      have hname : name ++ "." ++ member = name ++ (Slot.member member).suffix := by
        rw [Slot.suffix, String.append_assoc]
      have hstep := part_enters hlayout (f := allocateMembers layout name a id members) hid
        (hn _ List.mem_cons_self) hparts h.left
      have hright := (h.right (T := T)).addParts id [(.member member, m.next)]
      generalize hm₁ : enterAll T m (parts.listing (name ++ (Slot.member member).suffix)
        (T.decode t) a m.next) = m₁ at hstep hright
      have hid₁ : id < m₁.vars.size := by
        rw [← hm₁, enterAll, Array.size_append]
        exact Nat.lt_add_right _ hid
      have hnext : m.next + 1 + parts.size = m₁.next := by
        rw [← hm₁, enterAll, Skeleton.length_listing, Nat.add_assoc]
      rw [hnext] at hright ⊢
      have ih := ih hrest (fun e he => hn e (List.mem_cons_of_mem _ he))
        (by simpa [addParts, setVar] using hid₁) hright
      rw [allocateMembers]
      refine (bind_of_ok rfl).trans ?_
      rw [hname]
      refine hstep.trans (ih.trans ?_)
      rw [← addParts_enterAll hid₁, addParts_addParts, enterAll_append, hm₁, Skeleton.tops, hnext]
      rfl

variable {b : Block} (hb : m.block? a = some b) (hpos : 0 < a) (hid : b.var < m.vars.size)

include hb hpos hid

/-- The element that stands for all elements is laid out. -/
theorem elementWith_enters (hkind : (m.varOf b.var).kind = .array)
    (hempty : (m.varOf b.var).parts = {}) {t : String} {j : Nat}
    (helement : T.element (m.varOf b.var).type = .ok (t, j))
    (hn : T.NestsWithin n (T.decode t) (T.decode t)) (hk : T.HasSkeleton (T.decode t) k)
    (h : Enterable m (k.listing (name ++ Slot.anyElement.suffix) (T.decode t) a m.next)) :
    ∃ c, elementWith T layout a name .anyElement m = .ok c ((enterAll T m
      (k.listing (name ++ Slot.anyElement.suffix) (T.decode t) a m.next)).addParts b.var
        [(.anyElement, m.next)]) := by
  have hnone : m.address? (name ++ Slot.anyElement.suffix) = none := h.fresh _ List.mem_cons_self
  have hstep := fun f : MemM (Option Nat) => part_enters hlayout (f := f) hid hn hk h
  generalize (enterAll T m _).addParts b.var [(.anyElement, m.next)] = m' at hstep
  refine ⟨(m'.varOf b.var).parts.get? .anyElement, ?_⟩
  rw [elementWith, bind_of_ok (variableAt_of_pos hpos hb)]
  dsimp only
  rw [if_neg (not_not_intro hkind), hempty, Table.get?_empty]
  dsimp only
  rw [helement]
  refine (bind_of_ok rfl).trans ((bind_of_ok rfl).trans ?_)
  rw [hnone]
  exact (bind_of_ok rfl).trans ((hstep _).trans (bind_of_ok rfl))

/-- The parts of a variable are entered, and their addresses are added to it. -/
theorem allocateParts_enters {d : String} (hv : Declares T d (m.varOf b.var))
    (hd : normalize d = d ∧ T.aliases.get? d = none) (hn : T.NestsWithin (n + 1) d d)
    (hk : T.HasSkeleton d k) (h : Enterable m (k.cells name a m.next)) :
    allocateParts T layout name d a b.var m =
      .ok ⟨⟩ ((enterAll T m (k.cells name a m.next)).addParts b.var (k.tops m.next)) := by
  have harray : T.isArray d = endsInBracket d := TypeTable.isArray_resolved hd.1 hd.2
  have hdecode : T.decode d = d := TypeTable.decode_resolved hd.1 hd.2
  unfold allocateParts
  cases hk with
  | basic hbasic =>
    rw [if_pos hbasic, Skeleton.tops, addParts_nil, Skeleton.cells]
    simp [enterAll]
    rfl
  | @array _ _ j _ hbasic hbracket hlength hbase hk =>
    subst hbase
    have helement {t : String} (ht : T.decode t = d) :
        T.element t = .ok ((arrayParts d).1, j) := by
      rw [TypeTable.element_bracket hd.1 hd.2 ht hbracket, hlength]
      rfl
    have hpart := hn _ (.element hbasic (harray.trans hbracket) (helement hdecode))
    rw [Skeleton.cells_part, Skeleton.cells, List.append_nil] at h ⊢
    obtain ⟨c, hc⟩ := elementWith_enters hlayout hb hpos hid
      (hv.kind.trans (TypeTable.kindOf_bracket hd.1 hv.type hbasic hbracket)) hv.parts
      (helement hv.type) hpart hk h
    rw [hbasic, if_neg Bool.false_ne_true, harray, if_pos hbracket]
    exact bind_of_ok hc
  | @record _ r _ hbasic hbracket hr hk =>
    have hrecord : T.recordFor? d = some r := by rw [TypeTable.recordFor?, hr]
    rw [hbasic, if_neg Bool.false_ne_true, harray, hbracket, if_neg Bool.false_ne_true, hrecord]
    refine allocateMembers_enters hlayout hk (fun e he => ?_) hid h
    exact hn _ (.member hbasic (harray.trans hbracket) hrecord he)

end Parts

/-- The memory with a block for a variable at its end, and then the cells of its parts. -/
def laid (T : TypeTable) (m : Memory) (name : String) (parent : Nat) (id : VarId) (k : Skeleton) :
    Memory :=
  (enterAll T (m.withBlock name parent id) (k.cells name m.next (m.next + 1))).addParts id
    (k.tops (m.next + 1))

/-- A variable gets its block, and its parts are entered. -/
theorem parts_laid {layout : Layout} (hlayout : LayoutEnters T n layout) {d : String} {parent : Nat}
    (hid : id < m.vars.size) (hv : Declares T d (m.varOf id))
    (hd : normalize d = d ∧ T.aliases.get? d = none) (hn : T.NestsWithin (n + 1) d d)
    (hk : T.HasSkeleton d k) (h : Enterable m (k.listing name d parent m.next)) :
    allocateParts T layout name d m.next id (m.withBlock name parent id) =
      .ok ⟨⟩ (laid T m name parent id k) := by
  have hblock : (m.withBlock name parent id).block? m.next =
      some { address := m.next, parent, var := id } := by
    rw [block?, withBlock, h.next, Array.getElem?_push, if_pos rfl]
    rfl
  refine allocateParts_enters hlayout hblock h.pos hid hv hd hn hk ⟨?_, ?_, fun e he => ?_, ?_⟩
  · simp [withBlock, h.next]
  · exact Nat.succ_pos _
  · have hunder := Skeleton.namedUnder_of_mem he
    have hne : name ≠ e.name := fun heq => not_under_self name (heq.symm ▸ hunder)
    rw [address?_withBlock, if_neg hne, h.fresh e (List.mem_cons_of_mem _ he)]
  · exact (List.nodup_cons.mp h.nodup).2

theorem laid_part (d : String) (parent : Nat) :
    laid T { m with vars := m.vars.push (partVariable T name d m.next) } name parent m.vars.size k =
      enterAll T m (k.listing name d parent m.next) := by
  have hhead :
      addParts (withBlock { m with vars := m.vars.push (partVariable T name d m.next) } name
      parent m.vars.size) m.vars.size (k.tops (m.next + 1)) = enterAll T m
        [{ address := m.next, parent, name, type := d, parts := k.tops (m.next + 1) }] := by
    unfold addParts setVar withBlock enterAll
    dsimp only
    rw [Array.push_eq_append, modify_append, if_neg (Nat.lt_irrefl _), Nat.sub_self]
    rfl
  rw [laid, addParts_enterAll (by simp [withBlock]), hhead, ← enterAll_append]
  rfl

/-- Laying out a part enters its listing. -/
theorem allocateWithin_enters (hT : T.PlainAliases) : ∀ n : Nat,
    LayoutEnters T n fun name t parent => allocateWithin T n name t parent none
  | 0, _, _, _, _, _, hn, _, _ => hn.elim
  | n + 1, name, t, parent, m, k, hn, hk, h => by
    have hd := TypeTable.normal_decode (hT (normalize t))
    let v := partVariable T name (T.decode t) m.next
    have hvar : ({ m with vars := m.vars.push v } : Memory).varOf m.vars.size = v := by
      rw [varOf_push, if_pos rfl]
    have hv : Declares T (T.decode t) v := ⟨rfl, TypeTable.decode_resolved hd.1 hd.2, rfl⟩
    have henter : Enterable { m with vars := m.vars.push v }
        (k.listing name (T.decode t) parent m.next) := ⟨h.next, h.pos, h.fresh, h.nodup⟩
    have hparts :=
      parts_laid (allocateWithin_enters hT n) (by simp) (hvar.symm ▸ hv) hd hn hk henter
    rw [laid_part] at hparts
    exact (bind_of_ok rfl).trans
      ((bind_of_ok rfl).trans ((bind_of_ok rfl).trans (bind_of_ok hparts)))

/-- Laying out a declared variable with a fresh name appends the listing of the skeleton of its
type, if no two cells of the listing have one name. -/
theorem allocate_lists (hT : T.PlainAliases) (hnest : T.WellNested) (hlinked : Linked none m)
    {parent : Nat} (hparent : parent < m.next) {v : Variable} (hid : id < m.vars.size)
    (hv : m.varOf id = v) (hparts : v.parts = {}) (hkind : v.kind = T.kindOf v.type)
    (hk : T.HasSkeleton (T.decode v.type) k) (hname : m.address? v.name = none)
    (hfree : m.Free v.name)
    (hcells : k.listing v.name (T.decode v.type) parent m.next = cells)
    (hdistinct : (cells.map Cell.name).Nodup) :
    allocate T v.name v.type parent (some id) m = .ok m.next (laid T m v.name parent id k) ∧
      ∀ e ∈ cells, Skeleton.Followed cells m.next e ∧
        Skeleton.PartsAre e.name e.parts (cells.filter (·.parent = e.address)) := by
  subst hcells
  refine ⟨?_, fun e he => ⟨Skeleton.followed_listing he, Skeleton.partsAre_listing hparent he⟩⟩
  obtain ⟨n, hn⟩ : ∃ n, layoutBound T m v.type = n + 1 := ⟨_, rfl⟩
  have hrun := parts_laid (allocateWithin_enters hT n) hid (hv.symm ▸ ⟨hparts, rfl, hkind⟩)
    (TypeTable.normal_decode (hT _)) (hn ▸ hnest.part m v.type) hk
    ⟨hlinked.next, hlinked.pos, fun e he => ?_, hdistinct⟩
  · refine (bind_of_ok rfl).trans ?_
    rw [hn, allocateWithin]
    exact (bind_of_ok rfl).trans ((bind_of_ok rfl).trans ((bind_of_ok rfl).trans (bind_of_ok hrun)))
  · rcases List.mem_cons.mp he with rfl | he
    · exact hname
    · cases ha : m.address? e.name with
      | none => rfl
      | some a => exact absurd (Skeleton.namedUnder_of_mem he) (hfree _ a ha)

/-- An array of structs. -/
def track : Variable := { name := "t", type := "struct position[3]", kind := .array }

/-- The element of the array, its members, and the element of the first one. -/
def trackSkeleton : Skeleton :=
  .part .anyElement "struct position" (.part (.member "at") "int[2]"
    (.part .anyElement "int" .none .none) (.part (.member "tag") "int" .none .none)) .none

/-- The cells of the array, if it is at address 1. -/
def trackCells : List Cell := trackSkeleton.listing "t" (positions.decode track.type) 0 1

theorem allocate_lists_track :
    positions.HasSkeleton (positions.decode track.type) trackSkeleton ∧
      (trackCells.map Cell.name).Nodup ∧
      allocate positions "t" track.type 0 (some 0) { vars := #[track] } =
        .ok 1 (laid positions { vars := #[track] } "t" 0 0 trackSkeleton) ∧
      ∀ e ∈ trackCells, Skeleton.Followed trackCells 1 e ∧
        Skeleton.PartsAre e.name e.parts (trackCells.filter (·.parent = e.address)) := by
  have hint : positions.HasSkeleton "int" .none := .basic (by decide +kernel)
  have hpair : positions.HasSkeleton "int[2]" (.part .anyElement "int" .none .none) :=
    .array (n := 2) (by decide +kernel) (by decide +kernel) (by decide +kernel)
      (by decide +kernel) hint
  have hk : positions.HasSkeleton (positions.decode track.type) trackSkeleton := by
    refine .array (n := 3) (by decide +kernel) (by decide +kernel) (by decide +kernel)
      (by decide +kernel) (.record (by decide +kernel) (by decide +kernel) rfl ?_)
    exact .cons (by decide +kernel) hpair (.cons (by decide +kernel) hint .nil)
  have hdistinct : (trackCells.map Cell.name).Nodup := by decide +kernel
  exact ⟨hk, hdistinct, allocate_lists (v := track) (fun _ _ h => by cases h) wellNested_positions
    (linked_empty.declare (v := track) rfl) (by decide) (by decide) rfl rfl
      (by decide +kernel) hk rfl
    (fun _ _ h => by cases h) rfl hdistinct⟩

/-- A struct with a member that is called like the elements of another one. -/
def rows : TypeTable where
  structs := ⟨[("struct row_with_key",
    { name := "struct row_with_key", memberTypes := ["int", "int[3]"],
      memberNames := ["a[?]", "a"] })]⟩

/-- A variable of that type. -/
def keyed : Variable := { name := "v", type := "struct row_with_key", kind := .record }

/-- The members, and the element of the second one. -/
def keyedSkeleton : Skeleton :=
  .part (.member "a[?]") "int" .none
    (.part (.member "a") "int[3]" (.part .anyElement "int" .none .none) .none)

/-- The element of the array has the name of the other member, and gets no block. -/
theorem keyed_element_not_laid :
    rows.PlainAliases ∧ rows.WellNested ∧ keyed.kind = rows.kindOf keyed.type ∧
      rows.HasSkeleton (rows.decode keyed.type) keyedSkeleton ∧
      ∃ m', allocate rows "v" keyed.type 0 (some 0) { vars := #[keyed] } = .ok 1 m' ∧
        m'.next < 1 + (keyedSkeleton.listing "v" (rows.decode keyed.type) 0 1).length := by
  have hint : rows.HasSkeleton "int" .none := .basic (by decide +kernel)
  have harray : rows.HasSkeleton "int[3]" (.part .anyElement "int" .none .none) :=
    .array (n := 3) (by decide +kernel) (by decide +kernel) (by decide +kernel)
      (by decide +kernel) hint
  refine ⟨fun _ _ h => (by cases h), TypeTable.wellNested_of_shorter rfl (by decide +kernel),
    by decide +kernel, .record (by decide +kernel) (by decide +kernel) rfl
      (.cons (by decide +kernel) hint (.cons (by decide +kernel) harray .nil)), ?_⟩
  have hvalue : value? (allocate rows "v" keyed.type 0 (some 0) { vars := #[keyed] }) = some 1 := by
    decide +kernel
  have hnext : value? ((do
      let _ ← allocate rows "v" keyed.type 0 (some 0)
      return (← get).next) { vars := #[keyed] }) = some 4 := by decide +kernel
  obtain ⟨m', hrun⟩ := exists_of_value? hvalue
  rw [bind_of_ok hrun] at hnext
  refine ⟨m', hrun, ?_⟩
  rw [Option.some.inj hnext, Skeleton.length_listing]
  decide

end Memory

end Footprint
