import Footprint.Node

/-!
# Items in walking order

Sorting by place neither adds items nor loses any, and what the items are does
not matter to it.
-/

namespace Footprint.Node

variable {α β : Type} {e : (Int × Int) × α} {items : List ((Int × Int) × α)}

theorem mem_insertAt {p : Int × Int} {a : α} : e ∈ insertAt p a items ↔ e = (p, a) ∨ e ∈ items := by
  induction items with
  | nil => simp [insertAt]
  | cons e' items ih =>
    unfold insertAt
    split
    · exact List.mem_cons
    · simp only [List.mem_cons, ih]
      exact or_left_comm

theorem mem_sortByPlace : e ∈ sortByPlace items ↔ e ∈ items := by
  induction items with
  | nil => rfl
  | cons e' items ih => rw [sortByPlace, mem_insertAt, ih, List.mem_cons]

theorem mem_inOrder {a : α} : a ∈ inOrder items ↔ ∃ e ∈ items, e.2 = a := by
  simp [inOrder, mem_sortByPlace]

theorem insertAt_map (g : α → β) (p : Int × Int) (a : α) (items : List ((Int × Int) × α)) :
    insertAt p (g a) (items.map fun e => (e.1, g e.2)) =
      (insertAt p a items).map fun e => (e.1, g e.2) := by
  induction items with
  | nil => rfl
  | cons e items ih =>
    simp only [List.map_cons, insertAt, ih]
    split <;> rfl

theorem sortByPlace_map (g : α → β) (items : List ((Int × Int) × α)) :
    sortByPlace (items.map fun e => (e.1, g e.2)) =
      (sortByPlace items).map fun e => (e.1, g e.2) := by
  induction items with
  | nil => rfl
  | cons e items ih =>
    rw [List.map_cons, sortByPlace, ih, insertAt_map]
    rfl

theorem inOrder_map (g : α → β) (items : List ((Int × Int) × α)) :
    inOrder (items.map fun e => (e.1, g e.2)) = (inOrder items).map g := by
  simp [inOrder, sortByPlace_map]

end Footprint.Node
