import Mathlib.Data.List.Induction
import Mathlib.Data.Option.Basic
import TableQuery.Proofs.Groups

/-!
# Groups of groups

Groups by a fine key can be grouped again by a coarser one. The groups of groups come in the order
in which the rows have their coarse keys first, and the rows of the groups in one of them are the
rows with its key, though in another order.
-/

namespace TableQuery

/-- Of elements with one image the first one stands for all. -/
theorem eraseDups_map_eraseDups {α β : Type} [DecidableEq α] [DecidableEq β] (f : α → β)
    (xs : List α) : (xs.eraseDups.map f).eraseDups = (xs.map f).eraseDups := by
  induction xs using List.reverseRecOn with
  | nil => rfl
  | append_singleton xs x ih =>
    rw [List.eraseDups_append, List.map_append, List.map_append, List.eraseDups_append,
      List.eraseDups_append, ih]
    congr 1
    by_cases hx : x ∈ xs
    · have hfx : ∃ a, a ∈ xs ∧ f a = f x := ⟨x, hx, rfl⟩
      simp [List.removeAll, hx, hfx]
    · simp [List.removeAll, hx, List.eraseDups_cons, List.mem_eraseDups]

/-- A list is what is found at its places. -/
theorem map_getD_range {α : Type} (xs : List α) (x : α) :
    (List.range xs.length).map (fun j => xs.getD j x) = xs := by
  refine List.ext_getElem (by simp) fun j _ hj => ?_
  simp [hj]

namespace IsGrouping

variable {κ κ' : Type} [DecidableEq κ] [DecidableEq κ'] {fine : Nat → κ} {coarse : Nat → κ'}
  {n : Nat} {gs : List (List Nat)} {key : Nat → κ'}

/-- The rows of a group have the key of the first one. -/
theorem key_eq_first (h : IsGrouping fine n gs) {g : List Nat} (hg : g ∈ gs) {row : Nat}
    (hrow : row ∈ g) : fine (g.headD 0) = fine row := by
  obtain ⟨first, hfirst, hrows⟩ := h.rows g hg
  have hkey : fine row = fine first := by
    rw [hrows] at hrow
    simpa using (List.mem_filter.1 hrow).2
  rw [hkey, List.headD_eq_head?_getD, hfirst, Option.getD_some]

/-- The groups have their coarse keys in the order of the rows. -/
theorem keysOf_coarse (h : IsGrouping fine n gs) (hcoarse : coarse.FactorsThrough fine)
    (hkey : ∀ j < gs.length, ∀ row ∈ gs.getD j [], key j = coarse row) :
    keysOf key gs.length = keysOf coarse n := by
  have : Nonempty κ' := ⟨coarse 0⟩
  obtain ⟨f, rfl⟩ := (Function.factorsThrough_iff coarse).1 hcoarse
  have hkeys : (List.range gs.length).map key = (keysOf fine n).map f := by
    refine (List.map_injective_iff.2 (Option.some_injective κ')) ?_
    have hcoarse : gs.map (fun g => g.head?.map (f ∘ fine)) = ((keysOf fine n).map f).map some := by
      have hfine := congrArg (List.map (Option.map f)) h.keys
      simpa [Function.comp_def] using hfine
    rw [← hcoarse]
    refine List.ext_getElem (by simp) fun j hj hj' => ?_
    have hj : j < gs.length := by simpa using hj
    obtain ⟨first, hfirst, -⟩ := h.rows _ (List.getElem_mem hj)
    have hmem : first ∈ gs.getD j [] := by
      simpa [hj] using List.mem_of_head? hfirst
    simp [hfirst, hkey j hj first hmem]
  rw [keysOf, hkeys, keysOf, eraseDups_map_eraseDups, List.map_map]
  rfl

/-- Groups of rows with one key each, of which those with a given key are kept, have the rows with
it. -/
theorem flatten_filter {rows : Nat → List Nat} {js : List Nat}
    (hkey : ∀ j ∈ js, ∀ row ∈ rows j, key j = coarse row) (k : κ') :
    ((js.filter fun j => key j = k).map rows).flatten =
      (js.map rows).flatten.filter fun row => coarse row = k := by
  induction js with
  | nil => rfl
  | cons j js ih =>
    obtain ⟨hj, hjs⟩ := List.forall_mem_cons.1 hkey
    rw [List.map_cons, List.flatten_cons, List.filter_append, ← ih hjs]
    by_cases hk : key j = k
    · have hkept : (rows j).filter (fun row => coarse row = k) = rows j :=
        List.filter_eq_self.2 fun row hrow => by simp [← hj row hrow, hk]
      rw [hkept, List.filter_cons_of_pos (by simpa using hk), List.map_cons, List.flatten_cons]
    · have hnone : (rows j).filter (fun row => coarse row = k) = [] :=
        List.filter_eq_nil_iff.2 fun row hrow => by simp [← hj row hrow, hk]
      rw [hnone, List.filter_cons_of_neg (by simpa using hk), List.nil_append]

/-- The rows of the groups with a coarse key are the rows with it. -/
theorem perm_rowsOf_coarse (h : IsGrouping fine n gs)
    (hkey : ∀ j < gs.length, ∀ row ∈ gs.getD j [], key j = coarse row) (k : κ') :
    ((rowsOf key gs.length k).map fun j => gs.getD j []).flatten.Perm (rowsOf coarse n k) := by
  have hrows : (((List.range gs.length).filter fun j => key j = k).map fun j =>
      gs.getD j []).flatten =
        ((List.range gs.length).map fun j => gs.getD j []).flatten.filter fun row =>
          coarse row = k := flatten_filter (fun j hj => hkey j (List.mem_range.1 hj)) k
  rw [rowsOf, hrows, map_getD_range]
  exact h.partition.filter _

end IsGrouping

end TableQuery
