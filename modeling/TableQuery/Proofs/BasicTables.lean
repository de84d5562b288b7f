import TableQuery.Proofs.Columns
import TableQuery.Proofs.JoinedColumns

/-!
# Tables of basic types

A table is basic if its columns hold whole numbers of 64 bits, texts or truth values, or nothing,
and have as many cells as there are rows. A cell of such a column is the cell of just one value that
fits the type of the column. So it makes no difference whether values are compared, ordered or told
apart, or their cells.
-/

namespace TableQuery

namespace Scalar

variable {type : ColumnType} {x y : Scalar}

theorem scalar_cell (h : x.fits type = true) : Cell.scalar type x.cell = x := by
  cases x with
  | null => rfl
  | bool b => rfl
  | int i =>
    have htype : type = .int64 := by simpa [fits] using h
    subst htype
    simp [cell, Cell.ofScalar, Cell.scalar, Number.toInt64?_toInt]
  | float x => cases h
  | str s => rfl

@[simp]
theorem isNull_cell (x : Scalar) : x.cell.isNull = x.isNull := by
  cases x <;> rfl

@[simp]
theorem truth?_cell (x : Scalar) : x.cell.truth? = x.truth? := by
  cases x with
  | int i =>
    have hzero : (i.toInt = 0) = (i = 0) := by
      rw [← Int64.toInt_inj, Int64.toInt_zero]
    simp [cell, Cell.ofScalar, Cell.truth?, truth?, bne, hzero]
  | _ => rfl

theorem cell_ofTruth (b : Option Bool) : (ofTruth b).cell = Cell.ofTruth b := by
  cases b <;> rfl

theorem fits_ofTruth (b : Option Bool) : (ofTruth b).fits .bool = true := by
  cases b <;> rfl

/-- Integers compare as their 64-bit forms do. -/
theorem compare_toInt (a b : Int64) : compare a.toInt b.toInt = compare a b := by
  simp only [compare, compareOfLessAndEq, Int64.lt_iff_toInt_lt, Int64.toInt_inj]

/-- Values of one type compare as their cells do. -/
theorem compare?_of_fits (hx : x.fits type = true) (hy : y.fits type = true)
    (hnx : x.isNull = false) (hny : y.isNull = false) :
    compare? x y = some (Cell.order x.cell y.cell) := by
  cases x with
  | null => cases hnx
  | float x => cases hx
  | bool a =>
    cases y with
    | bool b => rfl
    | null => cases hny
    | _ => simp_all [fits]
  | int a =>
    cases y with
    | int b => simp [compare?, cell, Cell.ofScalar, Cell.order, compare_toInt]
    | null => cases hny
    | _ => simp_all [fits]
  | str a =>
    cases y with
    | str b => rfl
    | null => cases hny
    | _ => simp_all [fits]

theorem sortCompare_of_fits (hx : x.fits type = true) (hy : y.fits type = true) :
    sortCompare x y = Cell.orderMissingLast x.cell y.cell := by
  unfold sortCompare Cell.orderMissingLast
  rw [isNull_cell, isNull_cell]
  cases hnx : x.isNull <;> cases hny : y.isNull
  · simp [compare?_of_fits hx hy hnx hny]
  all_goals rfl

theorem beq_compare {α : Type} [Ord α] [Std.LawfulEqOrd α] [DecidableEq α] (a b : α) :
    (compare a b == .eq) = decide (a = b) := by
  rw [Bool.eq_iff_iff, beq_iff_eq, Std.LawfulEqCmp.compare_eq_iff_eq, decide_eq_true_iff]

/-- Values of one type have one identity just if their cells are the same. -/
theorem same_cell (hx : x.fits type = true) (hy : y.fits type = true) :
    x.cell.same y.cell = decide (x.identity = y.identity) := by
  cases x <;> cases y <;> cases type <;>
    simp_all [fits, cell, Cell.ofScalar, Cell.same, Cell.order, Cell.isNull, identity,
      compare_toInt, beq_compare]

end Scalar

namespace Column

/-- A column of whole numbers, texts or truth values, some of which may be missing. -/
structure IsBasic (c : Column) : Prop where
  type : c.type.isBasic = true
  cells : ∀ cell ∈ c.cells, ∃ x : Scalar, x.fits c.type = true ∧ x.cell = cell

/-- The value of a column in a row; where there is no row, the value is missing. -/
def value (c : Column) (row : Nat) : Scalar :=
  c.scalars[row]?.getD .null

theorem isBasic_of_scalars {name : String} {type : ColumnType} (ht : type.isBasic = true)
    {xs : List Scalar} (h : ∀ x ∈ xs, x.fits type = true) :
    IsBasic ⟨name, type, xs.map Scalar.cell⟩ := by
  refine ⟨ht, fun cell hcell => ?_⟩
  obtain ⟨x, hx, rfl⟩ := List.mem_map.1 hcell
  exact ⟨x, h x hx, rfl⟩

namespace IsBasic

variable {c : Column}

theorem fits_scalars (h : c.IsBasic) : ∀ x ∈ c.scalars, x.fits c.type = true := by
  intro x hx
  obtain ⟨cell, hcell, rfl⟩ := List.mem_map.1 hx
  obtain ⟨y, hy, rfl⟩ := h.cells cell hcell
  rw [Scalar.scalar_cell hy]
  exact hy

theorem cells_eq (h : c.IsBasic) : c.cells = c.scalars.map Scalar.cell := by
  rw [scalars, List.map_map]
  refine (List.map_id _).symm.trans (List.map_congr_left fun cell hcell => ?_)
  obtain ⟨x, hx, rfl⟩ := h.cells cell hcell
  simp [Scalar.scalar_cell hx]

theorem fits_value (h : c.IsBasic) (row : Nat) : (c.value row).fits c.type = true := by
  unfold value
  cases hx : c.scalars[row]? with
  | none => rfl
  | some x => exact h.fits_scalars x (List.mem_of_getElem? hx)

theorem getElem?_cells (h : c.IsBasic) (row : Nat) :
    c.cells[row]?.getD .null = (c.value row).cell := by
  rw [h.cells_eq, List.getElem?_map, value]
  cases c.scalars[row]? <;> rfl

theorem cells_eq_values (h : c.IsBasic) {n : Nat} (hn : c.cells.length = n) :
    c.cells = (List.range n).map fun row => (c.value row).cell := by
  refine List.ext_getElem (by simp [hn]) fun row h₁ h₂ => ?_
  rw [List.getElem_map, List.getElem_range, ← h.getElem?_cells, List.getElem?_eq_getElem h₁]
  rfl

theorem take (h : c.IsBasic) (rows : List (Option Nat)) : (c.take rows).IsBasic := by
  refine ⟨h.type, fun cell hcell => ?_⟩
  obtain ⟨row, -, rfl⟩ := List.mem_map.1 hcell
  cases hcell : row.bind fun i => c.cells.toArray[i]? with
  | none => exact ⟨.null, rfl, rfl⟩
  | some cell =>
    obtain ⟨i, -, hi⟩ := Option.bind_eq_some_iff.1 hcell
    rw [List.getElem?_toArray] at hi
    exact h.cells cell (List.mem_of_getElem? hi)

end IsBasic

end Column

/-- A table with pairwise different names whose columns are basic and of one length. -/
structure Table.IsBasic (t : Table) : Prop where
  nodup : t.names.Nodup
  rectangular : t.IsRectangular
  columns : ∀ c ∈ t.columns, c.IsBasic

end TableQuery
