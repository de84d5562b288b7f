import TableQuery.Proofs.RolledUpValues

/-!
# Values in another order

Counting values, summing whole numbers and looking for the least or the greatest of values of one
type give the same whatever the order of the values is, although the sums on the way wrap around at
other places and the extremes so far are others. The type of a computed column depends on which
kinds of values there are, and so on their order neither.
-/

namespace TableQuery

namespace Scalar

variable {type : ColumnType} {x y z : Scalar}

/-- A value of a type that is not missing. -/
def IsKnown (type : ColumnType) (x : Scalar) : Prop :=
  x.fits type = true ∧ x.isNull = false

theorem IsKnown.cases (h : x.IsKnown type) : (type = .int64 ∧ ∃ i, x = .int i) ∨
    (type = .str ∧ ∃ s, x = .str s) ∨ (type = .bool ∧ ∃ b, x = .bool b) := by
  obtain ⟨hfits, hnull⟩ := h
  cases x with
  | null => cases hnull
  | float v => cases hfits
  | int i => exact .inl ⟨of_decide_eq_true hfits, i, rfl⟩
  | str s => exact .inr (.inl ⟨of_decide_eq_true hfits, s, rfl⟩)
  | bool b => exact .inr (.inr ⟨of_decide_eq_true hfits, b, rfl⟩)

theorem compare_trans {α : Type} [Ord α] [Std.TransOrd α] {a b c : α} {o : Ordering}
    (hab : compare a b = o) (hbc : compare b c = o) : compare a c = o := by
  cases o with
  | lt => exact Std.TransCmp.lt_trans hab hbc
  | eq => exact Std.TransCmp.eq_trans hab hbc
  | gt => exact Std.TransCmp.gt_trans hab hbc

/-- Known values of one type are ordered transitively. -/
theorem order_trans {o : Ordering} (hx : x.IsKnown type) (hy : y.IsKnown type)
    (hz : z.IsKnown type) (hxy : Cell.order x.cell y.cell = o)
    (hyz : Cell.order y.cell z.cell = o) : Cell.order x.cell z.cell = o := by
  rcases hx.cases with ⟨rfl, a, rfl⟩ | ⟨rfl, a, rfl⟩ | ⟨rfl, a, rfl⟩ <;>
    rcases hy.cases with ⟨htype, b, rfl⟩ | ⟨htype, b, rfl⟩ | ⟨htype, b, rfl⟩ <;> cases htype <;>
    rcases hz.cases with ⟨htype, c, rfl⟩ | ⟨htype, c, rfl⟩ | ⟨htype, c, rfl⟩ <;> cases htype <;>
    exact compare_trans hxy hyz

/-- Known values of one type that come neither before nor behind each other are equal. -/
theorem eq_of_order (hx : x.IsKnown type) (hy : y.IsKnown type)
    (h : Cell.order x.cell y.cell = .eq) : x = y := by
  have hcell := Cell.order_cell_eq_eq hx.1 hy.1 h (by simp [hx.2, hy.2])
  rw [← scalar_cell hx.1, hcell, scalar_cell hy.1]

/-! ## Extremes -/

variable {direction : Ordering}

theorem farther_of_isKnown (hx : x.IsKnown type) (hy : y.IsKnown type) :
    farther direction x y = if Cell.order y.cell x.cell = direction then y else x := by
  simp [farther, hx.2, hy.2]

theorem farther_null_right : farther direction x .null = x :=
  rfl

theorem farther_null_left : farther direction .null x = x := by
  cases x <;> rfl

theorem farther_comm (hdirection : direction ≠ .eq) (hx : x.IsKnown type) (hy : y.IsKnown type) :
    farther direction x y = farther direction y x := by
  rw [farther_of_isKnown hx hy, farther_of_isKnown hy hx, ← Cell.order_swap_cell hx.1 hy.1]
  cases ho : Cell.order x.cell y.cell with
  | eq => rw [eq_of_order hx hy ho, ite_self, ite_self]
  | lt => cases direction <;> first | rfl | exact absurd rfl hdirection
  | gt => cases direction <;> first | rfl | exact absurd rfl hdirection

/-- The same one of three known values stays, whichever of the other two is compared with the first
one before. -/
theorem farther_right_comm_of_isKnown (hdirection : direction ≠ .eq) (hx : x.IsKnown type)
    (hy : y.IsKnown type) (hz : z.IsKnown type) :
    farther direction (farther direction x y) z = farther direction (farther direction x z) y := by
  rw [farther_of_isKnown hx hy, farther_of_isKnown hx hz]
  by_cases hyx : Cell.order y.cell x.cell = direction <;>
    by_cases hzx : Cell.order z.cell x.cell = direction
  · rw [if_pos hyx, if_pos hzx]
    exact farther_comm hdirection hy hz
  · have hzy : Cell.order z.cell y.cell ≠ direction := fun h => hzx (order_trans hz hy hx h hyx)
    rw [if_pos hyx, if_neg hzx, farther_of_isKnown hy hz, farther_of_isKnown hx hy, if_neg hzy,
      if_pos hyx]
  · have hyz : Cell.order y.cell z.cell ≠ direction := fun h => hyx (order_trans hy hz hx h hzx)
    rw [if_neg hyx, if_pos hzx, farther_of_isKnown hx hz, farther_of_isKnown hz hy, if_pos hzx,
      if_neg hyz]
  · rw [if_neg hyx, if_neg hzx, farther_of_isKnown hx hz, farther_of_isKnown hx hy, if_neg hzx,
      if_neg hyx]

theorem farther_right_comm (hdirection : direction ≠ .eq) (hx : x.fits type = true)
    (hy : y.fits type = true) (hz : z.fits type = true) :
    farther direction (farther direction x y) z = farther direction (farther direction x z) y := by
  have known_or_null {v : Scalar} (hv : v.fits type = true) : v = .null ∨ v.IsKnown type := by
    cases v with
    | null => exact .inl rfl
    | _ => exact .inr ⟨hv, rfl⟩
  rcases known_or_null hy with rfl | hy
  · rw [farther_null_right, farther_null_right]
  · rcases known_or_null hz with rfl | hz
    · rw [farther_null_right, farther_null_right]
    · rcases known_or_null hx with rfl | hx
      · rw [farther_null_left, farther_null_left]
        exact farther_comm hdirection hy hz
      · exact farther_right_comm_of_isKnown hdirection hx hy hz

/-- The extreme of values of one type does not depend on their order. -/
theorem foldl_farther_perm (hdirection : direction ≠ .eq) {xs ys : List Scalar} (h : xs.Perm ys)
    (hxs : ∀ v ∈ xs, v.fits type = true) {best : Scalar} (hbest : best.fits type = true) :
    xs.foldl (farther direction) best = ys.foldl (farther direction) best := by
  induction h generalizing best with
  | nil => rfl
  | cons v _ ih =>
    obtain ⟨hv, hxs⟩ := List.forall_mem_cons.1 hxs
    exact ih hxs (fits_farther hbest hv)
  | swap v w xs =>
    obtain ⟨hw, hxs⟩ := List.forall_mem_cons.1 hxs
    obtain ⟨hv, -⟩ := List.forall_mem_cons.1 hxs
    simp only [List.foldl_cons, farther_right_comm hdirection hbest hw hv]
  | trans hperm _ ih₁ ih₂ =>
    exact (ih₁ hxs hbest).trans (ih₂ (fun v hv => hxs v (hperm.mem_iff.2 hv)) hbest)

end Scalar

/-! ## Aggregates -/

namespace Aggregate

/-- The aggregates of a column that do not depend on the order of its values: the number of values,
the sum of whole numbers, and the extremes of whole numbers, texts or truth values. -/
inductive Tallies (c : Column) : Aggregate → Prop where
  | count : Tallies c .count
  | sum (hc : c.IsBasic) (htype : c.type = .int64) : Tallies c .sum
  | min (hc : c.IsBasic) : Tallies c .min
  | max (hc : c.IsBasic) : Tallies c .max

/-- Such an aggregate has a value, which is the same for every order of the rows. -/
theorem Tallies.reduce {c : Column} {a : Aggregate} (h : a.Tallies c) {rows : List Nat}
    {xs : List Scalar} (hxs : xs.Perm (rows.map c.value)) :
    a.reduce xs = .ok (c.reduced a rows) := by
  have extreme (hc : c.IsBasic) {direction : Ordering} (hdirection : direction ≠ .eq) :
      extremeOf direction xs =
        .ok ((extremeOf direction (rows.map c.value)).toOption.getD .null) := by
    have hfits : ∀ x ∈ rows.map c.value, x.fits c.type = true :=
      List.forall_mem_map.2 fun row _ => hc.fits_value row
    have hfits' : ∀ x ∈ xs, x.fits c.type = true := fun x hx => hfits x (hxs.mem_iff.1 hx)
    rw [extremeOf_of_fits direction hfits, extremeOf_of_fits direction hfits',
      Scalar.foldl_farther_perm hdirection hxs hfits' rfl]
    rfl
  cases h with
  | count =>
    rw [Column.reduced, Aggregate.reduce, Aggregate.reduce, (hxs.filter _).length_eq]
    rfl
  | sum hc htype =>
    have hfits := fits_values hc htype rows
    have hfits' : ∀ x ∈ xs, x.fits .int64 = true := fun x hx => hfits x (hxs.mem_iff.1 hx)
    rw [Column.reduced, Aggregate.reduce, Aggregate.reduce, sumOf_of_fits hfits,
      sumOf_of_fits hfits', (hxs.map _).foldl_op_eq]
    rfl
  | min hc => exact extreme hc (by decide)
  | max hc => exact extreme hc (by decide)

end Aggregate

/-! ## Computed columns -/

namespace Column

theorem typeOfKinds_perm {kinds kinds' : List Scalar.Kind} (h : kinds.Perm kinds') :
    typeOfKinds kinds = typeOfKinds kinds' := by
  have hcontains (k : Scalar.Kind) : kinds.contains k = kinds'.contains k := by
    rw [Bool.eq_iff_iff, List.contains_iff_mem, List.contains_iff_mem, h.mem_iff]
  simp only [typeOfKinds, hcontains]

end Column

/-- Computed values in another order make a column with the same cells in that order. -/
theorem Eager.exists_conform (fs : Functions) (scope : Scope) (e : Expr) (t : Table) (name : String)
    (xs : List Scalar) :
    ∃ (type : ColumnType) (cell : Scalar → Cell), ∀ ys : List Scalar, ys.Perm xs →
      conform fs scope e t (.ofScalars name ys) = ⟨name, type, ys.map cell⟩ := by
  let computed := Column.typeOfKinds (xs.map Scalar.kind)
  have hcomputed {ys : List Scalar} (hys : ys.Perm xs) :
      Column.ofScalars name ys = ⟨name, computed, ys.map (Column.cellOf computed)⟩ := by
    simp only [Column.ofScalars, Column.typeOfKinds_perm (hys.map Scalar.kind), computed]
  unfold conform
  cases Formula.typeOfExpr e t.schema fs scope with
  | error f => exact ⟨computed, Column.cellOf computed, fun ys hys => hcomputed hys⟩
  | ok target =>
    by_cases htakes : computed.takesOn target
    · refine ⟨target, Cell.cast computed target ∘ Column.cellOf computed, fun ys hys => ?_⟩
      rw [hcomputed hys]
      simp [htakes, Column.cast]
    · refine ⟨computed, Column.cellOf computed, fun ys hys => ?_⟩
      rw [hcomputed hys]
      simp [htakes]

end TableQuery
