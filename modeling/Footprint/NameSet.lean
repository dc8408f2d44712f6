/-!
# Sets of names

A set of names is kept as an ascending list without repetitions, so that
walking through it visits the names in ascending code point order.
-/

namespace Footprint

/-- A finite set of names, walked in ascending order. -/
structure NameSet where
  /-- The names, ascending. -/
  toList : List String := []
deriving Repr, DecidableEq, Inhabited

namespace NameSet

instance : Membership String NameSet := ⟨fun s n => n ∈ s.toList⟩

instance (n : String) (s : NameSet) : Decidable (n ∈ s) :=
  inferInstanceAs (Decidable (n ∈ s.toList))

/-- Puts a name in its place in an ascending list, unless it is there. -/
def place (n : String) : List String → List String
  | [] => [n]
  | m :: rest => if n = m then m :: rest else if n < m then n :: m :: rest else m :: place n rest

/-- The name is in the set. -/
def contains (s : NameSet) (n : String) : Bool := s.toList.contains n

/-- The set with a name added. -/
def insert (s : NameSet) (n : String) : NameSet := ⟨place n s.toList⟩

/-- The set with a name taken out. -/
def erase (s : NameSet) (n : String) : NameSet := ⟨s.toList.filter fun m => m ≠ n⟩

/-- The names of both sets. -/
def union (s t : NameSet) : NameSet := t.toList.foldl insert s

/-- The set of the names of a list. -/
def ofList (ns : List String) : NameSet := ns.foldl insert {}

/-- Every name of the first set is in the second. -/
def subset (s t : NameSet) : Bool := s.toList.all t.contains

/-- The set has no name. -/
def isEmpty (s : NameSet) : Bool := s.toList.isEmpty

/-! ## What the operations do to membership -/

theorem mem_place {n m : String} {ns : List String} : m ∈ place n ns ↔ m = n ∨ m ∈ ns := by
  induction ns with
  | nil => simp [place]
  | cons k rest ih =>
    by_cases h : n = k
    · subst h
      simp [place]
    · by_cases hlt : n < k
      · simp [place, h, hlt]
      · simp only [place, h, hlt, if_false, List.mem_cons, ih]
        constructor
        · rintro (hk | hn | hr)
          · exact .inr (.inl hk)
          · exact .inl hn
          · exact .inr (.inr hr)
        · rintro (hn | hk | hr)
          · exact .inr (.inl hn)
          · exact .inl hk
          · exact .inr (.inr hr)

@[simp] theorem mem_insert {s : NameSet} {n m : String} : m ∈ s.insert n ↔ m = n ∨ m ∈ s :=
  mem_place

@[simp] theorem mem_erase {s : NameSet} {n m : String} : m ∈ s.erase n ↔ m ∈ s ∧ m ≠ n := by
  show m ∈ s.toList.filter _ ↔ m ∈ s.toList ∧ m ≠ n
  simp [List.mem_filter]

end NameSet

end Footprint
