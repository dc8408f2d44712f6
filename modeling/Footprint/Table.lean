/-!
# Tables

A table is a finite map that keeps the order in which its keys came in.
Setting a key that is there already changes its value and leaves it in its
place.  Several answers list a table, so the order belongs to the type.

`total` adds up the sizes of the elements of a list, such as the values of a
table.  The searches that go through a table are bounded by such sums.
-/

namespace Footprint

/-! ## Sums of sizes -/

/-- The sum of the sizes of the elements of a list. -/
def total {α : Type} (size : α → Nat) : List α → Nat
  | [] => 0
  | x :: xs => size x + total size xs

section Total

variable {α β : Type} {size : α → Nat}

@[simp] theorem total_nil : total size [] = 0 := rfl

@[simp] theorem total_cons (x : α) (xs : List α) :
    total size (x :: xs) = size x + total size xs := rfl

@[simp] theorem total_zero (xs : List α) : total (fun _ => 0) xs = 0 := by
  induction xs with
  | nil => rfl
  | cons x xs ih => simp [ih]

@[simp] theorem total_append (xs ys : List α) :
    total size (xs ++ ys) = total size xs + total size ys := by
  induction xs with
  | nil => simp
  | cons x xs ih => simp [ih, Nat.add_assoc]

@[simp] theorem total_map (size : β → Nat) (f : α → β) (xs : List α) :
    total size (xs.map f) = total (fun x => size (f x)) xs := by
  induction xs with
  | nil => rfl
  | cons x xs ih => simp [ih]

theorem total_congr {size' : α → Nat} {xs : List α} (h : ∀ x ∈ xs, size x = size' x) :
    total size xs = total size' xs := by
  induction xs with
  | nil => rfl
  | cons x xs ih =>
    rw [total_cons, total_cons, h x (List.mem_cons_self ..),
      ih fun y hy => h y (List.mem_cons_of_mem x hy)]

theorem total_perm {xs ys : List α} (h : xs.Perm ys) : total size xs = total size ys := by
  induction h with
  | nil => rfl
  | cons x _ ih => rw [total_cons, total_cons, ih]
  | swap x y xs =>
    simp only [total_cons]
    omega
  | trans _ _ ih ih' => exact ih.trans ih'

theorem length_flatMap_eq_total (f : α → List β) (xs : List α) :
    (xs.flatMap f).length = total (fun x => (f x).length) xs := by
  induction xs with
  | nil => rfl
  | cons x xs ih => simp [ih]

end Total

/-! ## Tables -/

/-- A finite map in insertion order. -/
structure Table (κ ν : Type) where
  /-- The entries, oldest key first. -/
  entries : List (κ × ν) := []
deriving Repr, DecidableEq, Inhabited

namespace Table

variable {κ ν : Type}

/-- The value stored under a key in a list of entries. -/
def lookup [DecidableEq κ] (k : κ) : List (κ × ν) → Option ν
  | [] => none
  | (k', v) :: rest => if k' = k then some v else lookup k rest

/-- A list of entries with the key set: changed in place, or added at the end. -/
def put [DecidableEq κ] (k : κ) (v : ν) : List (κ × ν) → List (κ × ν)
  | [] => [(k, v)]
  | (k', v') :: rest => if k' = k then (k', v) :: rest else (k', v') :: put k v rest

/-- The value stored under a key. -/
def get? [DecidableEq κ] (t : Table κ ν) (k : κ) : Option ν := lookup k t.entries

/-- The table with the key set. -/
def set [DecidableEq κ] (t : Table κ ν) (k : κ) (v : ν) : Table κ ν := ⟨put k v t.entries⟩

/-- The key is in the table. -/
def contains [DecidableEq κ] (t : Table κ ν) (k : κ) : Bool := (t.get? k).isSome

/-- The keys, oldest first. -/
def keys (t : Table κ ν) : List κ := t.entries.map Prod.fst

/-- The values, in the order of their keys. -/
def values (t : Table κ ν) : List ν := t.entries.map Prod.snd

/-- The table that setting the pairs one after the other gives. -/
def ofList [DecidableEq κ] (kvs : List (κ × ν)) : Table κ ν :=
  kvs.foldl (fun t (k, v) => t.set k v) {}

/-! ## What setting a key does -/

theorem lookup_put [DecidableEq κ] (k k' : κ) (v : ν) (es : List (κ × ν)) :
    lookup k' (put k v es) = if k = k' then some v else lookup k' es := by
  induction es with
  | nil => simp [put, lookup]
  | cons e rest ih =>
    obtain ⟨k₀, v₀⟩ := e
    by_cases h : k₀ = k
    · subst h
      by_cases h' : k₀ = k' <;> simp [put, lookup, h']
    · by_cases h' : k₀ = k'
      · subst h'
        simp [put, lookup, h, Ne.symm h]
      · simp [put, lookup, h, h', ih]

@[simp] theorem get?_set [DecidableEq κ] (t : Table κ ν) (k k' : κ) (v : ν) :
    (t.set k v).get? k' = if k = k' then some v else t.get? k' :=
  lookup_put k k' v t.entries

/-- A key that was not there comes last. -/
theorem put_of_lookup [DecidableEq κ] {k : κ} (v : ν) {es : List (κ × ν)}
    (h : lookup k es = none) : put k v es = es ++ [(k, v)] := by
  induction es with
  | nil => rfl
  | cons e rest ih =>
    obtain ⟨k', v'⟩ := e
    by_cases he : k' = k
    · simp [lookup, he] at h
    · simp only [lookup, he, if_false] at h
      simp [put, he, ih h]

theorem mem_of_lookup [DecidableEq κ] {k : κ} {v : ν} :
    ∀ {es : List (κ × ν)}, lookup k es = some v → (k, v) ∈ es
  | (k', v') :: es, h => by
    unfold lookup at h
    split at h
    · next he =>
      cases h
      simp [he]
    · exact List.mem_cons_of_mem _ (mem_of_lookup h)

/-- Every entry is that of a key in the table. -/
theorem exists_lookup [DecidableEq κ] {k : κ} {v : ν} {es : List (κ × ν)} (h : (k, v) ∈ es) :
    ∃ v', lookup k es = some v' := by
  induction es with
  | nil => cases h
  | cons e rest ih =>
    obtain ⟨k', v'⟩ := e
    by_cases he : k' = k
    · exact ⟨v', by simp [lookup, he]⟩
    · cases h with
      | head => exact absurd rfl he
      | tail _ h => simpa [lookup, he] using ih h

theorem mem_values_of_get? [DecidableEq κ] {t : Table κ ν} {k : κ} {v : ν}
    (h : t.get? k = some v) : v ∈ t.values :=
  List.mem_map.mpr ⟨(k, v), mem_of_lookup h, rfl⟩

@[simp] theorem get?_empty [DecidableEq κ] (k : κ) : ({} : Table κ ν).get? k = none := rfl

end Table

end Footprint
