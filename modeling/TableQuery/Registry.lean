/-!
# Entries by name

A registry keeps one entry for each name, in the order of the names.
-/

namespace TableQuery

abbrev Registry (α : Type) := List (String × α)

namespace Registry

variable {α : Type}

/-- Put an entry at its place, instead of the one of its name. -/
def insert (key : String) (x : α) : Registry α → Registry α
  | [] => [(key, x)]
  | (k, y) :: rest =>
    if key < k then (key, x) :: (k, y) :: rest
    else if key = k then (key, x) :: rest
    else (k, y) :: insert key x rest

/-- Remove the entry of a name. -/
def erase (key : String) (r : Registry α) : Registry α :=
  r.filter fun (k, _) => k ≠ key

/-- The entry of a name. -/
def get? (key : String) (r : Registry α) : Option α :=
  r.lookup key

/-- Whether a name has an entry. -/
def has (key : String) (r : Registry α) : Bool :=
  (r.get? key).isSome

def names (r : Registry α) : List String :=
  r.map Prod.fst

theorem mem_of_get? {key : String} {r : Registry α} {x : α} (h : r.get? key = some x) :
    (key, x) ∈ r := by
  obtain ⟨before, after, rfl, -⟩ := List.lookup_eq_some_iff.1 h
  simp

/-- Nothing comes in but the entry itself. -/
theorem mem_insert {key : String} {x : α} {r : Registry α} {e : String × α}
    (h : e ∈ insert key x r) : e = (key, x) ∨ e ∈ r := by
  induction r with
  | nil => exact .inl (List.mem_singleton.1 h)
  | cons d r ih =>
    obtain ⟨k, y⟩ := d
    simp only [insert] at h
    split at h
    · exact List.mem_cons.1 h
    · split at h
      · exact (List.mem_cons.1 h).imp_right (List.mem_cons_of_mem _)
      · rcases List.mem_cons.1 h with rfl | h
        · exact .inr List.mem_cons_self
        · exact (ih h).imp_right (List.mem_cons_of_mem _)

/-- An entry just put in is found. -/
theorem get?_insert_self (key : String) (x : α) (r : Registry α) :
    (insert key x r).get? key = some x := by
  induction r with
  | nil => simp [insert, get?]
  | cons e r ih =>
    obtain ⟨k, y⟩ := e
    simp only [insert]
    split
    · simp [get?]
    · split
      · simp [get?]
      · next h₁ h₂ =>
        have : (key == k) = false := by simpa using h₂
        simpa [get?, List.lookup_cons, this] using ih

/-- Other entries stay. -/
theorem get?_insert_of_ne {key k : String} (h : k ≠ key) (x : α) (r : Registry α) :
    (insert key x r).get? k = r.get? k := by
  have hk : (k == key) = false := by simpa using h
  induction r with
  | nil => simp [insert, get?, List.lookup_cons, hk]
  | cons e r ih =>
    obtain ⟨k', y⟩ := e
    simp only [insert]
    split
    · simp [get?, List.lookup_cons, hk]
    · split
      · next h₂ => subst h₂; simp [get?, List.lookup_cons, hk]
      · simp only [get?, List.lookup_cons] at ih ⊢
        split <;> simp_all

/-- Nothing is found under a name that has been removed. -/
theorem get?_erase_self (key : String) (r : Registry α) : (erase key r).get? key = none := by
  induction r with
  | nil => rfl
  | cons e r ih =>
    obtain ⟨k, y⟩ := e
    by_cases hk : k = key
    · simpa [erase, hk] using ih
    · have hne : (key == k) = false := by simpa using Ne.symm hk
      simpa [erase, get?, hk, List.lookup_cons, hne] using ih

/-- Other entries stay. -/
theorem get?_erase_of_ne {key k : String} (h : k ≠ key) (r : Registry α) :
    (erase key r).get? k = r.get? k := by
  induction r with
  | nil => rfl
  | cons e r ih =>
    obtain ⟨k', y⟩ := e
    by_cases hk : k' = key
    · subst hk
      have hne : (k == k') = false := by simpa using h
      simpa [erase, get?, List.lookup_cons, hne] using ih
    · have hcons : erase key ((k', y) :: r) = (k', y) :: erase key r := by simp [erase, hk]
      simp only [hcons, get?, List.lookup_cons] at ih ⊢
      rw [ih]

end Registry

end TableQuery
