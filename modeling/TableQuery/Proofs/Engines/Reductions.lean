import Mathlib.Algebra.GroupWithZero.Nat
import TableQuery.Proofs.Engines.Alike

/-!
# Aggregates on both engines

One engine reduces the values of a group one after the other, the other one the cells of a column. A
sum of whole numbers wraps around on both; of several least or greatest values one engine keeps the
first and the other one may keep the last, but these are the same.
-/

namespace TableQuery

/-- Whether an aggregate of values of a basic type has values of a basic type, the same on both
engines. -/
def Aggregate.Takes (a : Aggregate) (type : ColumnType) : Prop :=
  type.isBasic = true ∧ a ≠ .avg ∧ (a = .sum → type = .int64)

/-- The type of an aggregate of values of a basic type. -/
def Aggregate.resultType : Aggregate → ColumnType → ColumnType
  | .count, _ => .int64
  | _, type => type

namespace Cell

theorem order_cell_eq_eq {type : ColumnType} {x y : Scalar} (hx : x.fits type = true)
    (hy : y.fits type = true) (h : order x.cell y.cell = .eq) : x.cell.isNull = y.cell.isNull →
    x.cell = y.cell := by
  intro hnull
  have hsame : x.cell.same y.cell = true := by simp [same, hnull, h]
  rw [Scalar.same_cell hx hy, decide_eq_true_iff] at hsame
  cases x <;> cases y <;> simp_all [Scalar.identity, Scalar.fits]

theorem order_swap_cell {type : ColumnType} {x y : Scalar} (hx : x.fits type = true)
    (hy : y.fits type = true) : (order x.cell y.cell).swap = order y.cell x.cell := by
  cases x with
  | float v => cases hx
  | null => cases y <;> rfl
  | bool a =>
    cases y with
    | bool b =>
      change (compare a b).swap = compare b a
      exact Std.OrientedCmp.eq_swap.symm
    | _ => rfl
  | int a =>
    cases y with
    | int b =>
      change (compare a.toInt b.toInt).swap = compare b.toInt a.toInt
      exact Std.OrientedCmp.eq_swap.symm
    | _ => rfl
  | str a =>
    cases y with
    | str b =>
      change (compare a b).swap = compare b a
      exact Std.OrientedCmp.eq_swap.symm
    | _ => rfl

/-- The cell that stays when two are compared, the one so far and a further one. -/
def farther (direction : Ordering) (best c : Cell) : Cell :=
  if order c best == direction then c else best

/-- The cell farthest in a direction. -/
def farthest (direction : Ordering) : List Cell → Cell
  | [] => .null
  | c :: cs => cs.foldl (farther direction) c

theorem greatest_eq (cs : List Cell) : greatest cs = farthest .gt cs := by
  cases cs <;> rfl

/-- Of several least cells it does not matter which one is taken. -/
theorem least_eq {type : ColumnType} {xs : List Scalar}
    (hxs : ∀ x ∈ xs, x.fits type = true ∧ x.isNull = false) :
    least (xs.map Scalar.cell) = farthest .lt (xs.map Scalar.cell) := by
  have hstep {x y : Scalar} (hx : x.fits type = true ∧ x.isNull = false)
      (hy : y.fits type = true ∧ y.isNull = false) :
      (if order x.cell y.cell == .lt then x.cell else y.cell) = farther .lt x.cell y.cell := by
    rw [farther, ← order_swap_cell hx.1 hy.1]
    cases ho : order x.cell y.cell with
    | lt => rfl
    | eq => exact (order_cell_eq_eq hx.1 hy.1 ho (by simp [hx.2, hy.2])).symm
    | gt => rfl
  cases xs with
  | nil => rfl
  | cons x xs =>
    induction xs generalizing x with
    | nil => rfl
    | cons y ys ih =>
      obtain ⟨hx, hys⟩ := List.forall_mem_cons.1 hxs
      obtain ⟨hy, hys⟩ := List.forall_mem_cons.1 hys
      simp only [List.map_cons, least, farthest, List.foldl_cons, hstep hx hy] at ih ⊢
      rw [farther]
      split
      · exact ih y (List.forall_mem_cons.2 ⟨hy, hys⟩)
      · exact ih x (List.forall_mem_cons.2 ⟨hx, hys⟩)

end Cell

namespace Scalar

/-- The value that stays when two are compared, the one so far and a further one; missing ones are
passed over. -/
def farther (direction : Ordering) (best x : Scalar) : Scalar :=
  if x.isNull then best
  else if best.isNull then x
  else if Cell.order x.cell best.cell == direction then x
  else best

variable {type : ColumnType} {direction : Ordering}

theorem fits_farther {best x : Scalar} (hbest : best.fits type = true) (hx : x.fits type = true) :
    (farther direction best x).fits type = true := by
  unfold farther
  split_ifs <;> assumption

/-- Missing values aside, the cell that stays is that of the value that stays. -/
theorem cell_foldl_farther {best : Scalar} (hbest : best.isNull = false) (xs : List Scalar) :
    (xs.foldl (farther direction) best).cell =
      ((xs.map cell).filter fun c => !c.isNull).foldl (Cell.farther direction) best.cell := by
  induction xs generalizing best with
  | nil => rfl
  | cons x xs ih =>
    rw [List.foldl_cons, List.map_cons]
    cases hx : x.isNull with
    | true =>
      have hstep : farther direction best x = best := by simp [farther, hx]
      rw [hstep, ih hbest, List.filter_cons_of_neg (by simp [hx])]
    | false =>
      have hstep : (farther direction best x).cell =
          Cell.farther direction best.cell x.cell := by
        simp only [farther, Cell.farther, hx, hbest, Bool.false_eq_true, if_false]
        split <;> rfl
      have hkept : (farther direction best x).isNull = false := by
        simp only [farther, hx, hbest, Bool.false_eq_true, if_false]
        split <;> assumption
      rw [ih hkept, hstep, List.filter_cons_of_pos (by simp [hx]), List.foldl_cons]

/-- The value that stays among several. -/
theorem cell_extreme (xs : List Scalar) :
    (xs.foldl (farther direction) .null).cell =
      Cell.farthest direction ((xs.map cell).filter fun c => !c.isNull) := by
  induction xs with
  | nil => rfl
  | cons x xs ih =>
    rw [List.foldl_cons, List.map_cons]
    cases hx : x.isNull with
    | true =>
      have hstep : farther direction .null x = .null := by simp [farther, hx]
      rw [hstep, ih, List.filter_cons_of_neg (by simp [hx])]
    | false =>
      have hstep : farther direction .null x = x := by
        simp only [farther, hx, Bool.false_eq_true, if_false]
        rfl
      rw [hstep, cell_foldl_farther hx, List.filter_cons_of_pos (by simp [hx])]
      rfl

theorem fits_foldl_farther {best : Scalar} (hbest : best.fits type = true) {xs : List Scalar}
    (hxs : ∀ x ∈ xs, x.fits type = true) : (xs.foldl (farther direction) best).fits type = true := by
  induction xs generalizing best with
  | nil => exact hbest
  | cons x xs ih =>
    obtain ⟨hx, hxs⟩ := List.forall_mem_cons.1 hxs
    exact ih (fits_farther hbest hx) hxs

end Scalar

namespace Aggregate

variable {type : ColumnType} {xs : List Scalar}

/-- Values of one type have an extreme. -/
theorem extremeOf_of_fits (direction : Ordering) (hxs : ∀ x ∈ xs, x.fits type = true) :
    extremeOf direction xs = .ok (xs.foldl (Scalar.farther direction) .null) := by
  have hbest : Scalar.null.fits type = true := rfl
  unfold extremeOf
  generalize Scalar.null = best at hbest ⊢
  induction xs generalizing best with
  | nil => rfl
  | cons x xs ih =>
    obtain ⟨hx, hxs⟩ := List.forall_mem_cons.1 hxs
    have hrest := ih hxs (Scalar.farther direction best x) (Scalar.fits_farther hbest hx)
    rw [List.foldlM_cons, List.foldl_cons, ← hrest]
    cases hnx : x.isNull with
    | true => simp [Scalar.farther, hnx]
    | false =>
      cases hnb : best.isNull with
      | true => simp [Scalar.farther, hnx, hnb]
      | false => simp [Scalar.farther, hnx, hnb, Scalar.compare?_of_fits hx hbest hnx hnb]

/-- Integers are summed modulo the number of 64-bit integers. -/
theorem foldlM_add (hxs : ∀ x ∈ xs, x.fits .int64 = true) (s : Int) :
    xs.foldlM RunningSum.add ⟨.ofInt s, none⟩ =
      .ok ⟨.ofInt (((xs.map Scalar.cell).filter fun c => !c.isNull).foldl
        (fun s c => s + c.toInt?.getD 0) s), none⟩ := by
  induction xs generalizing s with
  | nil => rfl
  | cons x xs ih =>
    obtain ⟨hx, hrest⟩ := List.forall_mem_cons.1 hxs
    rw [List.foldlM_cons]
    cases x with
    | null => exact ih hrest s
    | int i =>
      have hadd : RunningSum.add ⟨.ofInt s, none⟩ (.int i) = .ok ⟨.ofInt (s + i.toInt), none⟩ := by
        simp [RunningSum.add, Int64.ofInt_add]
      rw [hadd]
      exact ih hrest (s + i.toInt)
    | bool b => cases hx
    | float v => cases hx
    | str v => cases hx

theorem wrap_int64 (i : Int) : ColumnType.wrap .int64 i = (Int64.ofInt i).toInt := by
  have hmin : Int64.minValue.toInt = -9223372036854775808 := by decide
  have hmax : Int64.maxValue.toInt = 9223372036854775807 := by decide
  rw [Int64.toInt_ofInt, Int.bmod]
  simp only [ColumnType.wrap, ColumnType.bounds?, hmin, hmax, Int64.size, Int.reduceNeg,
    Int.reduceSub, Int.reduceAdd]
  split <;> omega

/-- Among cells of values of one type the ones that are not missing are present. -/
theorem filter_isPresent (hxs : ∀ x ∈ xs, x.fits type = true) :
    ((xs.map Scalar.cell).filter fun c => !c.isNull).filter Cell.isPresent =
      (xs.map Scalar.cell).filter fun c => !c.isNull := by
  refine List.filter_eq_self.2 fun c hc => ?_
  obtain ⟨hmem, hnull⟩ := List.mem_filter.1 hc
  obtain ⟨x, hx, rfl⟩ := List.mem_map.1 hmem
  have hfits := hxs x hx
  cases x with
  | null => cases hnull
  | float v => cases hfits
  | _ => rfl

theorem filter_cell (xs : List Scalar) :
    (xs.map Scalar.cell).filter (fun c => !c.isNull) =
      (xs.filter fun x => !x.isNull).map Scalar.cell := by
  simp [List.filter_map, Function.comp_def]

/-- An aggregate of values of one type gives the cell of its value for their cells. -/
theorem reduce_alike {a : Aggregate} (ha : a.Takes type) (hxs : ∀ x ∈ xs, x.fits type = true)
    (hlength : xs.length < 2 ^ 63) (inGroup : Bool) :
    ∃ v, a.reduce xs = .ok v ∧ v.fits (a.resultType type) = true ∧
      Cell.reduce a type inGroup (xs.map Scalar.cell) = v.cell := by
  obtain ⟨htype, havg, hsum⟩ := ha
  have hextremes : (if (((xs.map Scalar.cell).filter fun c => !c.isNull).filter
      Cell.isPresent).isEmpty then (xs.map Scalar.cell).filter fun c => !c.isNull
      else ((xs.map Scalar.cell).filter fun c => !c.isNull).filter Cell.isPresent) =
      (xs.map Scalar.cell).filter fun c => !c.isNull := by
    rw [filter_isPresent hxs, ite_self]
  cases a with
  | avg => exact absurd rfl havg
  | count =>
    refine ⟨_, rfl, rfl, ?_⟩
    have hle := List.length_filter_le (fun x : Scalar => !x.isNull) xs
    simp only [Cell.reduce, filter_cell, List.length_map, Scalar.cell, Cell.ofScalar]
    rw [Int64.toInt_ofNat_of_lt (by omega)]
  | sum =>
    obtain rfl := hsum rfl
    refine ⟨.int (.ofInt (((xs.map Scalar.cell).filter fun c => !c.isNull).foldl
        (fun s c => s + c.toInt?.getD 0) 0)), ?_, rfl, ?_⟩
    · rw [reduce, sumOf, show (⟨0, none⟩ : RunningSum) = ⟨.ofInt 0, none⟩ from rfl, foldlM_add hxs]
      rfl
    · change Cell.int (ColumnType.wrap .int64 _) = _
      rw [wrap_int64]
      rfl
  | min =>
    refine ⟨_, extremeOf_of_fits .lt hxs, Scalar.fits_foldl_farther rfl hxs, ?_⟩
    have hknown : ∀ x ∈ xs.filter fun x => !x.isNull, x.fits type = true ∧ x.isNull = false := by
      intro x hx
      obtain ⟨hmem, hnull⟩ := List.mem_filter.1 hx
      exact ⟨hxs x hmem, by simpa using hnull⟩
    rw [Scalar.cell_extreme, filter_cell, ← Cell.least_eq hknown, ← filter_cell, ← hextremes]
    rfl
  | max =>
    refine ⟨_, extremeOf_of_fits .gt hxs, Scalar.fits_foldl_farther rfl hxs, ?_⟩
    rw [Scalar.cell_extreme, ← Cell.greatest_eq, ← hextremes]
    rfl
  | first =>
    refine ⟨_, rfl, ?_, ?_⟩
    · cases xs with
      | nil => rfl
      | cons x xs => exact hxs x List.mem_cons_self
    · cases xs <;> rfl
  | last =>
    refine ⟨_, rfl, ?_, ?_⟩
    · cases hlast : xs.getLast? with
      | none => rfl
      | some x => exact hxs x (List.mem_of_getLast? hlast)
    · simp only [Cell.reduce, List.getLast?_map]
      cases xs.getLast? <;> rfl

end Aggregate

/-! ## Expressions -/

namespace Eager

variable {functions : Functions} {t : Table} {name column : String} {a : Aggregate}

theorem groupValues_countStar (functions : Functions) (gs : List (List Nat)) (t : Table) :
    groupValues functions gs .countStar t = .ok (gs.map fun g => .int (.ofNat g.length)) := by
  obtain ⟨d, hd, -⟩ := Loaded.exists_ofTable t [] (List.forall_mem_nil _)
  have hbind : Bound.bind .countStar t.names functions .group = .ok .rowCount := by
    rw [Bound.bind, Bound.ofExpr]
    rfl
  have hd' : Loaded.ofTable t (Bound.referenced .rowCount) = .ok d := hd
  rw [groupValues, hbind, ok_bind, hd', ok_bind]
  exact mapM_eq_ok_map fun g _ => rfl

/-- An aggregate of a column reduces its values in the rows of each group. -/
theorem groupValues_column {source : String} {c : Column}
    (hname : Aggregate.ofName? name = some a) (hresolve : Name.resolve? column t.names = some source)
    (hc : t.column source = .ok c) (gs : List (List Nat)) :
    groupValues functions gs (.call name [.column column]) t =
      gs.mapM fun g => a.reduce (g.map c.value) := by
  have hbind : Bound.bind (.call name [.column column]) t.names functions .group =
      .ok (.aggregate a (.column source)) := by
    rw [Bound.bind, Bound.ofExpr]
    simp only [hname, Bound.ofExprs, Bound.ofExpr, Name.resolve, hresolve]
    rfl
  obtain ⟨d, hd, -, hholds⟩ := Loaded.exists_ofTable t
    (Bound.referenced (.aggregate a (.column source))) fun n hn => by
      rw [List.mem_singleton.1 (Bound.mem_firsts.1 hn)]
      exact Name.mem_of_resolve? hresolve
  have hloaded : d.values source = .ok c.scalars.toArray := by
    obtain ⟨c', hc', hloaded⟩ := hholds source (Bound.mem_firsts.2 (List.mem_singleton_self _))
    rw [hc] at hc'
    cases hc'
    exact hloaded
  rw [groupValues, hbind, ok_bind, hd, ok_bind, Bound.evalGroups]
  congr 1
  funext g
  have hcolumn : Rows.column d source (.group g) = .ok (.many (g.map c.value)) := by
    simp only [Rows.column, hloaded, ok_bind, List.getElem?_toArray]
    rfl
  simp only [Bound.eval, hcolumn, ok_bind, Datum.toList]
  cases a.reduce (g.map c.value) <;> rfl

/-- An aggregate of a name that denotes no column fails before there are groups. -/
theorem groupValues_of_noColumn (hname : Aggregate.ofName? name = some a)
    (hresolve : Name.resolve? column t.names = none) (gs : List (List Nat)) :
    groupValues functions gs (.call name [.column column]) t = .error (.noColumn column t.names) := by
  rw [groupValues, Bound.bind, Bound.ofExpr]
  simp only [hname, Bound.ofExprs, Bound.ofExpr, Name.resolve, hresolve]
  rfl

end Eager

/-- The number of rows, or an aggregate of a column whose values it takes. The column may also
denote nothing. -/
inductive Expr.IsReduction (s : Schema) : Expr → Prop where
  | countStar : IsReduction s .countStar
  | column {name column : String} {a : Aggregate} (ha : Aggregate.ofName? name = some a)
      (h : ∀ c, Name.resolve? column (s.map Prod.fst) = some c →
        ∃ type, s.typeOf c = .ok type ∧ a.Takes type) :
      IsReduction s (.call name [.column column])

/-- An expression has a value for every group of rows on the one engine, and its formula has the
cell of this value on the other one. -/
structure Expr.Reduces (functions : Functions) (t : Table) (e : Expr) (f : Formula)
    (type : ColumnType) (value : List Nat → Scalar) : Prop where
  basic : type.isBasic = true
  fits : ∀ rows : List Nat, rows.length < 2 ^ 63 → (value rows).fits type = true
  values : ∀ gs : List (List Nat), (∀ g ∈ gs, g.length < 2 ^ 63) →
    Eager.groupValues functions gs e t = .ok (gs.map value)
  lowered : Deferred.lowered functions .group e t.schema = .ok f
  typed : f.typeOver t.schema = .ok type
  groups : ∀ gs : List (List Nat), (∀ g ∈ gs, g.length < 2 ^ 63) →
    f.eval t.schema t (some gs) = .ok ⟨type, .perGroup (gs.map fun g => (value g).cell)⟩
  whole : t.height < 2 ^ 63 →
    f.eval t.schema t none = .ok ⟨type, .constant (value (List.range t.height)).cell⟩

namespace Expr

variable {functions : Functions} {t : Table}

theorem reduces_countStar : Expr.Reduces functions t .countStar .rowCount .int64
    fun rows => .int (.ofNat rows.length) := by
  have hcell {n : Nat} (hn : n < 2 ^ 63) : (Scalar.int (.ofNat n)).cell = .int n := by
    rw [Scalar.cell, Cell.ofScalar, Int64.toInt_ofNat_of_lt hn]
  refine ⟨rfl, fun _ _ => rfl, fun gs _ => Eager.groupValues_countStar functions gs t, ?_, rfl,
    fun gs hgs => ?_, fun hheight => ?_⟩
  · rw [Deferred.lowered, Formula.lower, Formula.ofExpr]
    rfl
  · have hcounts : gs.map (fun g => Cell.int g.length) =
        gs.map fun g => (Scalar.int (.ofNat g.length)).cell :=
      List.map_congr_left fun g hg => (hcell (hgs g hg)).symm
    rw [Formula.eval, Values.counts, hcounts]
  · rw [Formula.eval, Values.counts, List.length_range, hcell hheight]

/-- The type of an aggregate is that of its values. -/
theorem reduced_of_takes {a : Aggregate} {type : ColumnType} (ha : a.Takes type) :
    ColumnType.reduced a type = .ok (a.resultType type) := by
  obtain ⟨-, havg, hsum⟩ := ha
  cases a with
  | avg => exact absurd rfl havg
  | sum =>
    obtain rfl := hsum rfl
    rfl
  | _ => rfl

theorem reduces_column {name column source : String} {a : Aggregate} {c : Column}
    (hname : Aggregate.ofName? name = some a) (hresolve : Name.resolve? column t.names = some source)
    (hc : t.column source = .ok c) (hbasic : c.IsBasic) (hlength : c.cells.length = t.height)
    (ha : a.Takes c.type) :
    Expr.Reduces functions t (.call name [.column column]) (.aggregate a (.column source))
      (a.resultType c.type) fun rows => (a.reduce (rows.map c.value)).toOption.getD .null := by
  have hfits (rows : List Nat) : ∀ x ∈ rows.map c.value, x.fits c.type = true := by
    refine List.forall_mem_map.2 fun row _ => hbasic.fits_value row
  have hvalue {rows : List Nat} (hrows : rows.length < 2 ^ 63) (inGroup : Bool) :=
    Aggregate.reduce_alike ha (hfits rows) (by rwa [List.length_map]) inGroup
  refine ⟨?_, fun rows hrows => ?_, fun gs hgs => ?_, ?_, ?_, fun gs hgs => ?_, fun hheight => ?_⟩
  · cases a with
    | count => rfl
    | _ => exact ha.1
  · obtain ⟨v, hv, hvfits, -⟩ := hvalue hrows true
    rw [hv]
    exact hvfits
  · rw [Eager.groupValues_column hname hresolve hc]
    refine mapM_eq_ok_map fun g hg => ?_
    obtain ⟨v, hv, -⟩ := hvalue (hgs g hg) true
    rw [hv]
    rfl
  · rw [Deferred.lowered, Formula.lower, Formula.ofExpr, Table.map_fst_schema]
    simp only [hname, Formula.ofExprs, Formula.ofExpr, Name.resolve, hresolve]
    rfl
  · rw [Formula.typeOver, Formula.typeOver, Table.typeOf_of_column hc, ok_bind,
      reduced_of_takes ha]
  · have hcells (g : List Nat) : g.map (fun row => c.cells.toArray.getD row .null) =
        (g.map c.value).map Scalar.cell := by
      rw [List.map_map]
      exact List.map_congr_left fun row _ => hbasic.getD_cells row
    have hreduced : gs.map (fun g => Cell.reduce a c.type true
        (g.map fun row => c.cells.toArray.getD row .null)) =
        gs.map fun g => ((a.reduce (g.map c.value)).toOption.getD .null).cell := by
      refine List.map_congr_left fun g hg => ?_
      obtain ⟨v, hv, -, hcell⟩ := hvalue (hgs g hg) true
      rw [hcells, hcell, hv]
      rfl
    rw [← hreduced, Formula.eval, Table.eval_column, hc]
    simp only [map_ok, ok_bind, Values.aggregate, reduced_of_takes ha]
    rfl
  · have hcells : c.cells = ((List.range t.height).map c.value).map Scalar.cell := by
      rw [List.map_map]
      exact hbasic.cells_eq_values hlength
    have hpresent : ¬(a = .sum ∧ (c.type = .null ∨ c.type = .date)) := by
      rintro ⟨-, htype | htype⟩
      · exact absurd ha.1 (by rw [htype]; decide)
      · exact absurd ha.1 (by rw [htype]; decide)
    have hrows : (List.range t.height).length < 2 ^ 63 := by simpa using hheight
    obtain ⟨v, hv, -, hcell⟩ := hvalue hrows false
    rw [← hcells] at hcell
    rw [Formula.eval, Table.eval_column, hc, hv]
    simp only [map_ok, ok_bind, Values.aggregate, reduced_of_takes ha, hpresent, if_false,
      Spread.parts, hcell]
    rfl

variable (functions) in
/-- A reduction fails on both engines before there are groups, or it reduces them. -/
theorem IsReduction.alike {e : Expr} (ht : t.IsBasic) (he : e.IsReduction t.schema) :
    (∃ fault, (∀ gs, Eager.groupValues functions gs e t = .error fault) ∧
      Deferred.lowered functions .group e t.schema = .error fault) ∨
    ∃ f type value, e.Reduces functions t f type value := by
  cases he with
  | countStar => exact .inr ⟨_, _, _, reduces_countStar⟩
  | @column name column a hname h =>
    rw [Table.map_fst_schema] at h
    cases hresolve : Name.resolve? column t.names with
    | none =>
      refine .inl ⟨.noColumn column t.names, Eager.groupValues_of_noColumn hname hresolve, ?_⟩
      rw [Deferred.lowered, Formula.lower, Formula.ofExpr, Table.map_fst_schema]
      simp only [hname, Formula.ofExprs, Formula.ofExpr, Name.resolve, hresolve]
      rfl
    | some source =>
      obtain ⟨c, hc⟩ := Table.exists_column_of_mem (Name.mem_of_resolve? hresolve)
      obtain ⟨type, htype, ha⟩ := h source hresolve
      rw [Table.typeOf_of_column hc] at htype
      cases htype
      have hmem := (Table.mem_of_column hc).1
      exact .inr ⟨_, _, _, reduces_column hname hresolve hc (ht.columns c hmem)
        (ht.rectangular c hmem) ha⟩

end Expr

end TableQuery
