import Mathlib.Algebra.GroupWithZero.Nat
import Mathlib.Data.List.Nodup
import TableQuery.Table.Group

/-!
# Groups of rows

The groups that are made by adding one row after the other are given in closed form: there is one
for each key, in the order in which the keys come first, and it lists the rows of its key in order.
Every row is in one group, and no group is empty.
-/

namespace TableQuery

variable {κ : Type} [DecidableEq κ]

theorem nodup_eraseDups (xs : List κ) : xs.eraseDups.Nodup := by
  induction h : xs.length using Nat.strongRecOn generalizing xs with
  | ind n ih =>
    cases xs with
    | nil => exact List.nodup_nil
    | cons x xs =>
      rw [List.eraseDups_cons, List.nodup_cons]
      constructor
      · simp [List.mem_eraseDups]
      · refine ih _ ?_ _ rfl
        have := List.length_filter_le (fun b => !b == x) xs
        rw [← h, List.length_cons]
        omega

/-- A row joins the group of its key if there is one, and is a group of its own otherwise. -/
theorem addToGroup_map (key : κ) (row : Nat) (ks : List κ) (rows : κ → List Nat) (h : ks.Nodup) :
    addToGroup (fun a b => decide (a = b)) key row (ks.map fun k => (k, rows k)) =
      if key ∈ ks then ks.map fun k => (k, if k = key then rows k ++ [row] else rows k)
      else ks.map (fun k => (k, rows k)) ++ [(key, [row])] := by
  induction ks with
  | nil => rfl
  | cons k ks ih =>
    obtain ⟨hk, hks⟩ := List.nodup_cons.1 h
    by_cases hkey : k = key
    · subst hkey
      have others : ks.map (fun j => (j, if j = k then rows j ++ [row] else rows j)) =
          ks.map fun j => (j, rows j) := by
        refine List.map_congr_left fun j hj => ?_
        have : j ≠ k := fun e => hk (e ▸ hj)
        rw [if_neg this]
      simp [addToGroup, others]
    · have hne : key ≠ k := fun e => hkey e.symm
      by_cases hmem : key ∈ ks
      · simp [addToGroup, hkey, hne, hmem, ih hks]
      · simp [addToGroup, hkey, hne, hmem, ih hks]

/-- The rows below `n` with a key. -/
def rowsOf (key : Nat → κ) (n : Nat) (k : κ) : List Nat :=
  (List.range n).filter fun row => key row = k

/-- The keys of the rows below `n`, each once, in the order in which they come first. -/
def keysOf (key : Nat → κ) (n : Nat) : List κ :=
  ((List.range n).map key).eraseDups

theorem nodup_keysOf (key : Nat → κ) (n : Nat) : (keysOf key n).Nodup :=
  nodup_eraseDups _

theorem rowsOf_succ (key : Nat → κ) (n : Nat) (k : κ) :
    rowsOf key (n + 1) k = if k = key n then rowsOf key n k ++ [n] else rowsOf key n k := by
  by_cases h : key n = k
  · simp [rowsOf, List.range_succ, h]
  · have : k ≠ key n := fun e => h e.symm
    simp [rowsOf, List.range_succ, h, this]

theorem mem_keysOf {key : Nat → κ} {n : Nat} {k : κ} :
    k ∈ keysOf key n ↔ ∃ row < n, key row = k := by
  simp [keysOf, List.mem_eraseDups]

theorem keysOf_succ (key : Nat → κ) (n : Nat) :
    keysOf key (n + 1) =
      if key n ∈ keysOf key n then keysOf key n else keysOf key n ++ [key n] := by
  simp only [keysOf, List.range_succ, List.map_append, List.map_cons, List.map_nil,
    List.eraseDups_append, List.mem_eraseDups]
  generalize (List.range n).map key = ks
  by_cases h : key n ∈ ks
  · simp [List.removeAll, h]
  · simp [List.removeAll, h, List.eraseDups_cons]

theorem rowsOf_of_not_mem {key : Nat → κ} {n : Nat} {k : κ} (h : k ∉ keysOf key n) :
    rowsOf key n k = [] := by
  refine List.filter_eq_nil_iff.2 fun row hrow => ?_
  have : key row ≠ k := fun e => h (mem_keysOf.2 ⟨row, List.mem_range.1 hrow, e⟩)
  simpa using this

/-- The groups in closed form. -/
theorem groupRows_eq (key : Nat → κ) (n : Nat) :
    groupRows (fun a b => decide (a = b)) key n =
      (keysOf key n).map fun k => (k, rowsOf key n k) := by
  induction n with
  | zero => rfl
  | succ n ih =>
    have step : groupRows (fun a b => decide (a = b)) key (n + 1) =
        addToGroup (fun a b => decide (a = b)) (key n) n
          (groupRows (fun a b => decide (a = b)) key n) := by
      simp [groupRows, List.range_succ]
    rw [step, ih, addToGroup_map _ _ _ _ (nodup_keysOf key n), keysOf_succ]
    by_cases h : key n ∈ keysOf key n
    · simp only [if_pos h, rowsOf_succ]
    · rw [if_neg h, if_neg h, List.map_append, List.map_singleton, rowsOf_succ, if_pos rfl,
        rowsOf_of_not_mem h, List.nil_append]
      congr 1
      refine List.map_congr_left fun k hk => ?_
      have : k ≠ key n := fun e => h (e ▸ hk)
      rw [rowsOf_succ, if_neg this]

/-- What makes lists of rows the groups of the rows below `n` by a key. -/
structure IsGrouping (key : Nat → κ) (n : Nat) (gs : List (List Nat)) : Prop where
  /-- The groups come in the order in which their keys come first, one for each key. -/
  keys : gs.map (fun g => g.head?.map key) = (keysOf key n).map some
  /-- Every row is in one group. -/
  partition : gs.flatten.Perm (List.range n)
  /-- A group lists the rows with the key of its first row, in order. -/
  rows : ∀ g ∈ gs, ∃ first, g.head? = some first ∧ g = rowsOf key n (key first)

theorem head?_rowsOf {key : Nat → κ} {n : Nat} {k : κ} (h : k ∈ keysOf key n) :
    ∃ first, (rowsOf key n k).head? = some first ∧ key first = k := by
  obtain ⟨row, hrow, hk⟩ := mem_keysOf.1 h
  have hmem : row ∈ rowsOf key n k := by simp [rowsOf, hrow, hk]
  cases hg : rowsOf key n k with
  | nil => simp [hg] at hmem
  | cons first rest =>
    have : first ∈ rowsOf key n k := by simp [hg]
    exact ⟨first, rfl, by simpa using (List.mem_filter.1 this).2⟩

theorem perm_flatten_rowsOf (key : Nat → κ) (n : Nat) :
    ((keysOf key n).map (rowsOf key n)).flatten.Perm (List.range n) := by
  refine (List.perm_ext_iff_of_nodup ?_ List.nodup_range).2 fun row => ?_
  · refine List.nodup_flatten.2 ⟨?_, ?_⟩
    · rintro g hg
      obtain ⟨k, -, rfl⟩ := List.mem_map.1 hg
      exact List.nodup_range.filter _
    · refine List.pairwise_map.2 ((nodup_keysOf key n).imp fun {j k} hne => ?_)
      intro row hj hk
      have hj : key row = j := by simpa using (List.mem_filter.1 hj).2
      have hk : key row = k := by simpa using (List.mem_filter.1 hk).2
      exact hne (hj.symm.trans hk)
  · constructor
    · intro h
      obtain ⟨g, hg, hrow⟩ := List.mem_flatten.1 h
      obtain ⟨k, -, rfl⟩ := List.mem_map.1 hg
      exact (List.mem_filter.1 hrow).1
    · intro h
      have hkey : key row ∈ keysOf key n := mem_keysOf.2 ⟨row, List.mem_range.1 h, rfl⟩
      refine List.mem_flatten.2 ⟨_, List.mem_map_of_mem hkey, ?_⟩
      simpa [rowsOf] using h

/-- The groups made row by row are the groups by the key. -/
theorem isGrouping_groupRows (key : Nat → κ) (n : Nat) :
    IsGrouping key n ((groupRows (fun a b => decide (a = b)) key n).map Prod.snd) := by
  have hgs : (groupRows (fun a b => decide (a = b)) key n).map Prod.snd =
      (keysOf key n).map (rowsOf key n) := by
    simp [groupRows_eq]
  rw [hgs]
  refine ⟨?_, perm_flatten_rowsOf key n, ?_⟩
  · rw [List.map_map]
    refine List.map_congr_left fun k hk => ?_
    obtain ⟨first, hfirst, hkey⟩ := head?_rowsOf hk
    simp [hfirst, hkey]
  · rintro g hg
    obtain ⟨k, hk, rfl⟩ := List.mem_map.1 hg
    obtain ⟨first, hfirst, rfl⟩ := head?_rowsOf hk
    exact ⟨first, hfirst, rfl⟩

namespace IsGrouping

variable {key : Nat → κ} {n : Nat} {gs : List (List Nat)}

theorem ne_nil (h : IsGrouping key n gs) : ∀ g ∈ gs, g ≠ [] := by
  rintro g hg rfl
  obtain ⟨first, hfirst, -⟩ := h.rows [] hg
  cases hfirst

/-- The sizes of the groups add up to the number of rows. -/
theorem sum_length (h : IsGrouping key n gs) : (gs.map List.length).sum = n := by
  rw [← List.length_flatten, h.partition.length_eq, List.length_range]

end IsGrouping

end TableQuery
