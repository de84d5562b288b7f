import Mathlib.Data.List.Nodup
import TableQuery.Engine.Eager
import TableQuery.Proofs.Success

/-!
# Columns of tables

Which columns a table has after an operation on it, by their names. A name stands for the first
column that has it; where names are pairwise different every column is found under its own.
-/

namespace TableQuery

/-- A value listed for each of some names is found under each of them. -/
theorem lookup_map_pair {α : Type} {names : List String} (f : String → α) {name : String}
    (h : name ∈ names) : (names.map fun n => (n, f n)).lookup name = some (f name) := by
  induction names with
  | nil => cases h
  | cons n names ih =>
    rw [List.map_cons, List.lookup_cons]
    by_cases hn : name = n
    · simp [hn]
    · have hbeq : (name == n) = false := by simpa using hn
      rw [hbeq]
      exact ih ((List.mem_cons.1 h).resolve_left hn)

namespace Table

variable {t : Table}

/-- The height is the number of cells of every column. -/
theorem height_eq_of_cells {n : Nat} (h : ∀ c ∈ t.columns, c.cells.length = n)
    (hempty : t.columns = [] → n = 0) : t.height = n := by
  unfold height
  split
  · next hnil => exact (hempty hnil).symm
  · next c cs hcons => exact h c (by simp [hcons])

theorem mem_of_column {name : String} {c : Column} (h : t.column name = .ok c) :
    c ∈ t.columns ∧ c.name = name := by
  unfold column at h
  split at h
  · next d hd =>
    cases h
    exact ⟨List.mem_of_find?_eq_some hd, by simpa using List.find?_some hd⟩
  · cases h

theorem column_name {name : String} {c : Column} (h : t.column name = .ok c) : c.name = name :=
  (mem_of_column h).2

theorem mem_names_of_column {name : String} {c : Column} (h : t.column name = .ok c) :
    name ∈ t.names := by
  obtain ⟨hmem, rfl⟩ := mem_of_column h
  exact List.mem_map_of_mem hmem

theorem exists_column_of_mem {name : String} (h : name ∈ t.names) : ∃ c, t.column name = .ok c := by
  obtain ⟨c, hc, rfl⟩ := List.mem_map.1 h
  unfold column
  cases hf : t.columns.find? (·.name = c.name) with
  | some d => exact ⟨d, rfl⟩
  | none =>
    have := List.find?_eq_none.1 hf c hc
    simp at this

/-- Columns that change but for their names are found as before. -/
theorem column_map {f : Column → Column} (hf : ∀ c, (f c).name = c.name) (name : String) :
    column ⟨t.columns.map f⟩ name = (t.column name).map f := by
  have hname : (fun c : Column => decide (c.name = name)) ∘ f = fun c => decide (c.name = name) := by
    funext c
    rw [Function.comp_apply, hf]
  rw [column, List.find?_map, hname, column]
  cases t.columns.find? fun c => decide (c.name = name) <;> rfl

/-- Among pairwise different names a column is found under its own. -/
theorem column_of_mem (h : t.names.Nodup) {c : Column} (hc : c ∈ t.columns) :
    t.column c.name = .ok c := by
  obtain ⟨d, hd⟩ := exists_column_of_mem (List.mem_map_of_mem (f := Column.name) hc)
  obtain ⟨hmem, hname⟩ := mem_of_column hd
  rw [hd, List.inj_on_of_nodup_map h hmem hc hname]

theorem find?_replace (c : Column) (columns : List Column) (name : String) :
    (columns.map fun d => if d.name = c.name then c else d).find? (·.name = name) =
      if name = c.name then (if c.name ∈ columns.map Column.name then some c else none)
      else columns.find? (·.name = name) := by
  induction columns with
  | nil => simp
  | cons d columns ih =>
    rw [List.map_cons, List.find?_cons, List.find?_cons, ih]
    by_cases hd : d.name = c.name <;> by_cases hc : c.name = name <;>
      simp_all [eq_comm]

theorem find?_put (c : Column) (t : Table) (name : String) :
    (t.put c).columns.find? (·.name = name) =
      if name = c.name then some c else t.columns.find? (·.name = name) := by
  unfold put
  split
  · next hmem =>
    have hmem : c.name ∈ t.columns.map Column.name := List.contains_iff_mem.1 hmem
    rw [find?_replace, if_pos hmem]
  · next hmem =>
    have hnone : t.columns.find? (·.name = c.name) = none := by
      refine List.find?_eq_none.2 fun d hd hname => hmem (List.contains_iff_mem.2 ?_)
      exact List.mem_map.2 ⟨d, hd, of_decide_eq_true hname⟩
    rw [List.find?_append]
    by_cases hname : name = c.name
    · subst hname
      simp [hnone]
    · simp [hname, Ne.symm hname]

/-- A column put in is found under its name, and the columns of other names as before. -/
theorem column_put (c : Column) (t : Table) (name : String) :
    (t.put c).column name = if name = c.name then .ok c else t.column name := by
  rw [column, find?_put]
  by_cases hname : name = c.name
  · rw [if_pos hname, if_pos hname]
  · rw [if_neg hname, if_neg hname, column]

/-- Columns of a table can be taken by name all at once. -/
theorem exists_columns {names : List String} (h : ∀ name ∈ names, name ∈ t.names) :
    ∃ columnOf : String → Column, ∀ name ∈ names, t.column name = .ok (columnOf name) := by
  refine ⟨fun name => (t.column name).toOption.getD default, fun name hname => ?_⟩
  obtain ⟨c, hc⟩ := exists_column_of_mem (h name hname)
  simp only [hc]
  rfl

theorem distinct_eq_ok {names : List String} : distinct names = .ok () ↔ names.Nodup := by
  induction names with
  | nil => simp [distinct]
  | cons name rest ih =>
    unfold distinct
    by_cases h : name ∈ rest
    · simp [h]
    · simp [h, ih]

/-- A selection has the named columns, as they were. -/
theorem select_eq_ok {names : List String} {s : Table} (h : t.select names = .ok s) :
    List.Forall₂ (fun name c => t.column name = .ok c) names s.columns := by
  obtain ⟨columns, hcolumns, h⟩ := bind_eq_ok.1 h
  cases h
  exact mapM_eq_ok.1 hcolumns

theorem map_name_of_columns {names : List String} {columns : List Column}
    (h : List.Forall₂ (fun name c => t.column name = .ok c) names columns) :
    columns.map Column.name = names :=
  (map_eq_map_of_forall₂ (h.imp fun _ _ hc => column_name hc)).trans (List.map_id' names)

end Table

theorem distinctOutputs_eq_ok {names : List String} :
    distinctOutputs names = .ok () ↔ names.Nodup := by
  suffices go : ∀ seen, distinctOutputs.go seen names = .ok () ↔
      names.Nodup ∧ ∀ name ∈ names, name ∉ seen by
    simpa [distinctOutputs] using go []
  induction names with
  | nil => simp [distinctOutputs.go]
  | cons name names ih =>
    intro seen
    unfold distinctOutputs.go
    by_cases h : name ∈ seen
    · simp [h]
    · simp only [List.contains_iff_mem, h, if_false, ih, List.nodup_cons, List.mem_cons,
        forall_eq_or_imp, not_or]
      constructor
      · rintro ⟨hnodup, hseen⟩
        exact ⟨⟨fun hmem => (hseen name hmem).1 rfl, hnodup⟩, not_false,
          fun n hn => (hseen n hn).2⟩
      · rintro ⟨⟨hname, hnodup⟩, -, hseen⟩
        exact ⟨hnodup, fun n hn => ⟨fun e => hname (e ▸ hn), hseen n hn⟩⟩

end TableQuery
