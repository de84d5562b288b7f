import Mathlib.Data.Option.NAry
import TableQuery.Engine.Basic
import TableQuery.Function.Builtin
import TableQuery.Proofs.Engines.Reductions

/-!
# Columns joined by logical operators

On tables at hand an operand of `NOT`, `AND` or `OR` counts as a truth value: a whole number other
than zero is true, and a missing one is unknown. A formula joins whole numbers bit by bit, and is
missing as soon as one of them is. So the one engine asks a condition once, about the truth values,
and the other one asks it of each of the 64 places, about the bits there.
-/

namespace TableQuery

/-- Conditions that join columns of one type by logical operators. -/
inductive Expr.IsLogical (s : Schema) (type : ColumnType) : Expr → Prop where
  | column {name c : String} (hname : Name.resolve? name (s.map Prod.fst) = some c)
      (htype : s.typeOf c = .ok type) : IsLogical s type (.column name)
  | not {e : Expr} (h : IsLogical s type e) : IsLogical s type (.not e)
  | and {l r : Expr} (hl : IsLogical s type l) (hr : IsLogical s type r) :
      IsLogical s type (.binary .and l r)
  | or {l r : Expr} (hl : IsLogical s type l) (hr : IsLogical s type r) :
      IsLogical s type (.binary .or l r)

/-! ## What a condition says -/

/-- What a condition says, by what the columns say that it mentions. -/
def Expr.truth? (value : String → Option Bool) : Expr → Option Bool
  | .column name => value name
  | .not e => (truth? value e).map Bool.not
  | .binary .and l r => Truth.both (truth? value l) (truth? value r)
  | .binary .or l r => Truth.either (truth? value l) (truth? value r)
  | _ => none

/-- The bits of a condition on whole numbers, by those of the columns that it mentions. -/
def Expr.bits? (value : String → Option (BitVec 64)) : Expr → Option (BitVec 64)
  | .column name => value name
  | .not e => (bits? value e).map fun w => ~~~w
  | .binary .and l r => Option.map₂ (· &&& ·) (bits? value l) (bits? value r)
  | .binary .or l r => Option.map₂ (· ||| ·) (bits? value l) (bits? value r)
  | _ => none

/-- The bits of a whole number. -/
def Scalar.bits? : Scalar → Option (BitVec 64)
  | .int i => some i.toBitVec
  | _ => none

/-- The whole number of known bits. -/
def Scalar.ofBits : Option (BitVec 64) → Scalar
  | some w => .int (.ofBitVec w)
  | none => .null

/-- The value in a row of the column that is written by a name. -/
def Table.valueAt (t : Table) (row : Nat) (name : String) : Scalar :=
  match (do t.column (← Name.resolve name t.names) : Except Fault Column) with
  | .ok c => c.value row
  | .error _ => .null

/-- Whether a condition says yes in a row. -/
def Table.affirms (t : Table) (e : Expr) (row : Nat) : Bool :=
  e.truth? (fun name => (t.valueAt row name).truth?) == some true

/-- Whether the columns of a condition are known in a row and it says yes at some place of their
bits. -/
def Table.affirmsInBits (t : Table) (e : Expr) (row : Nat) : Bool :=
  (e.columns.all fun name => (t.valueAt row name).bits?.isSome) &&
    (List.range 64).any fun place =>
      e.truth? (fun name => (t.valueAt row name).bits?.map (·.getLsbD place)) == some true

namespace Expr.IsLogical

variable {s : Schema} {type : ColumnType} {e : Expr} {value : String → Option (BitVec 64)}

/-- The bits of a condition are known if those of all its columns are. -/
theorem isSome_bits? (he : e.IsLogical s type) :
    (e.bits? value).isSome = e.columns.all fun name => (value name).isSome := by
  have hboth (f : BitVec 64 → BitVec 64 → BitVec 64) (a b : Option (BitVec 64)) :
      (Option.map₂ f a b).isSome = (a.isSome && b.isSome) := by
    cases a <;> cases b <;> rfl
  induction he with
  | column => simp [Expr.bits?, Expr.columns]
  | not _ ih => rw [Expr.bits?, Option.isSome_map, ih, Expr.columns]
  | and _ _ ihl ihr => rw [Expr.bits?, hboth, ihl, ihr, Expr.columns, List.all_append]
  | or _ _ ihl ihr => rw [Expr.bits?, hboth, ihl, ihr, Expr.columns, List.all_append]

/-- A bit of a condition is what it says of the bits of its columns at that place. -/
theorem truth?_getLsbD (he : e.IsLogical s type) {w : BitVec 64} (hw : e.bits? value = some w)
    {place : Nat} (hplace : place < 64) :
    e.truth? (fun name => (value name).map (·.getLsbD place)) = some (w.getLsbD place) := by
  induction he generalizing w with
  | @column name c hname htype =>
    rw [Expr.bits?] at hw
    rw [Expr.truth?, hw, Option.map_some]
  | not _ ih =>
    obtain ⟨v, hv, rfl⟩ := Option.map_eq_some_iff.1 hw
    rw [Expr.truth?, ih hv, Option.map_some, BitVec.getLsbD_not, decide_eq_true hplace,
      Bool.true_and]
  | and _ _ ihl ihr =>
    obtain ⟨v, v', hv, hv', rfl⟩ := Option.map₂_eq_some_iff.1 hw
    rw [Expr.truth?, ihl hv, ihr hv', BitVec.getLsbD_and]
    cases v.getLsbD place <;> cases v'.getLsbD place <;> rfl
  | or _ _ ihl ihr =>
    obtain ⟨v, v', hv, hv', rfl⟩ := Option.map₂_eq_some_iff.1 hw
    rw [Expr.truth?, ihl hv, ihr hv', BitVec.getLsbD_or]
    cases v.getLsbD place <;> cases v'.getLsbD place <;> rfl

end Expr.IsLogical

/-- A whole number says yes if one of its bits does. -/
theorem Scalar.holds_ofBits (w : BitVec 64) :
    (ofBits (some w)).holds = (List.range 64).any w.getLsbD := by
  have hzero : Int64.ofBitVec w = 0 ↔ ∀ place < 64, w.getLsbD place = false := by
    rw [← Int64.toBitVec_inj]
    refine ⟨fun h place _ => ?_, fun h => BitVec.eq_of_getLsbD_eq fun place hplace => ?_⟩
    · have hw : w = 0 := h
      simp [hw]
    · rw [Int64.toBitVec_ofBitVec, h place hplace]
      simp
  rw [Bool.eq_iff_iff, List.any_eq_true]
  have hholds : (ofBits (some w)).holds = true ↔ Int64.ofBitVec w ≠ 0 := by
    simp [holds, truth?, ofBits]
  rw [hholds, Ne, hzero]
  simp

/-- The bits of a condition make a number other than zero just if it says yes at some place. -/
theorem Expr.IsLogical.holds_ofBits {s : Schema} {type : ColumnType} {e : Expr}
    (he : e.IsLogical s type) (t : Table) (row : Nat) :
    (Scalar.ofBits (e.bits? fun name => (t.valueAt row name).bits?)).holds =
      t.affirmsInBits e row := by
  rw [Table.affirmsInBits, ← he.isSome_bits?]
  cases hw : e.bits? fun name => (t.valueAt row name).bits? with
  | none => rfl
  | some w =>
    rw [Scalar.holds_ofBits, Option.isSome_some, Bool.true_and]
    rw [Bool.eq_iff_iff, List.any_eq_true, List.any_eq_true]
    refine exists_congr fun place => and_congr_right fun hplace => ?_
    rw [he.truth?_getLsbD hw (List.mem_range.1 hplace)]
    simp

/-! ## Values and cells -/

namespace Scalar

variable {x y : Scalar}

theorem ofBits_bits? (hx : x.fits .int64 = true) : ofBits x.bits? = x := by
  cases x <;> first | rfl | cases hx

theorem fits_ofBits (w : Option (BitVec 64)) : (ofBits w).fits .int64 = true := by
  cases w <;> rfl

theorem ofTruth_truth? (hx : x.fits .bool = true) : ofTruth x.truth? = x := by
  cases x <;> first | rfl | cases hx

@[simp]
theorem truth?_ofTruth (b : Option Bool) : (ofTruth b).truth? = b := by
  cases b <;> rfl

/-- A 64-bit number made of bits is not wrapped around. -/
theorem wrap_toInt (w : BitVec 64) : ColumnType.wrap .int64 w.toInt = w.toInt := by
  rw [Aggregate.wrap_int64, Int64.ofInt_bitVecToInt, Int64.toInt_ofBitVec]

/-- The opposite of a whole number has the opposite bits. -/
theorem complement_ofBits (w : Option (BitVec 64)) :
    Cell.complement .int64 (ofBits w).cell = (ofBits (w.map fun w => ~~~w)).cell := by
  cases w with
  | none => rfl
  | some w =>
    have hnot : Int64.ofInt (-w.toInt - 1) = Int64.ofBitVec (~~~w) := by
      rw [Int64.ofInt_sub, Int64.ofInt_neg, Int64.ofInt_bitVecToInt, Int64.ofBitVec_not,
        Int64.not_eq_neg_add]
      rfl
    have hwrap : ColumnType.wrap .int64 (-w.toInt - 1) = (Int64.ofBitVec (~~~w)).toInt := by
      rw [Aggregate.wrap_int64, hnot]
    exact congrArg Cell.int hwrap

theorem bitwise_toInt (f : BitVec 64 → BitVec 64 → BitVec 64) (v w : BitVec 64) :
    Cell.bitwise .int64 f v.toInt w.toInt = .int (f v w).toInt := by
  rw [Cell.bitwise, BitVec.ofInt_toInt, BitVec.ofInt_toInt, wrap_toInt]

theorem binary_and_ofBits (v w : Option (BitVec 64)) (fixed : Fixed) :
    Cell.binary .int64 .and fixed (ofBits v).cell (ofBits w).cell =
      (ofBits (Option.map₂ (· &&& ·) v w)).cell := by
  cases v with
  | none => cases w <;> rfl
  | some v =>
    cases w with
    | none => rfl
    | some w => exact bitwise_toInt (· &&& ·) v w

theorem binary_or_ofBits (v w : Option (BitVec 64)) (fixed : Fixed) :
    Cell.binary .int64 .or fixed (ofBits v).cell (ofBits w).cell =
      (ofBits (Option.map₂ (· ||| ·) v w)).cell := by
  cases v with
  | none => cases w <;> rfl
  | some v =>
    cases w with
    | none => rfl
    | some w => exact bitwise_toInt (· ||| ·) v w

end Scalar

namespace Expr.IsLogical

variable {t : Table} {e : Expr} {type : ColumnType}

theorem valueAt_of_column {name c : String} {column : Column}
    (hname : Name.resolve? name t.names = some c) (hcolumn : t.column c = .ok column) (row : Nat) :
    t.valueAt row name = column.value row := by
  rw [Table.valueAt, Name.resolve, hname]
  dsimp only [ok_bind]
  rw [hcolumn]

/-- The column of a logical condition. -/
theorem exists_column {name c : String} (hname : Name.resolve? name (t.schema.map Prod.fst) = some c)
    (htype : t.schema.typeOf c = .ok type) :
    ∃ column, Name.resolve name t.names = .ok c ∧ t.column c = .ok column ∧ column.type = type ∧
      ∀ row, t.valueAt row name = column.value row := by
  rw [Table.map_fst_schema] at hname
  obtain ⟨column, hcolumn⟩ := Table.exists_column_of_mem (Name.mem_of_resolve? hname)
  rw [Table.typeOf_of_column hcolumn] at htype
  refine ⟨column, ?_, hcolumn, Except.ok.inj htype, fun row => valueAt_of_column hname hcolumn row⟩
  rw [Name.resolve, hname]

/-- On tables at hand a condition has a value that says what the condition says. -/
theorem bound (he : e.IsLogical t.schema type) (functions : Functions) :
    ∃ x g, Bound.ofExpr t.names functions .row false e = .ok x ∧ x.Gives t g ∧
      ∀ row, (g row).truth? = e.truth? fun name => (t.valueAt row name).truth? := by
  induction he with
  | @column name c hname htype =>
    obtain ⟨column, hresolve, hcolumn, -, hvalue⟩ := exists_column hname htype
    refine ⟨.column c, column.value, ?_, .column hcolumn, fun row => ?_⟩
    · rw [Bound.ofExpr, hresolve]
      rfl
    · rw [Expr.truth?, hvalue]
  | not _ ih =>
    obtain ⟨x, g, hx, hgives, htruth⟩ := ih
    refine ⟨.not x, _, ?_, hgives.not, fun row => ?_⟩
    · rw [Bound.ofExpr, hx]
      rfl
    · rw [Scalar.complement, Scalar.truth?_ofTruth, htruth, Expr.truth?]
  | and _ _ ihl ihr =>
    obtain ⟨x, g, hx, hgives, htruth⟩ := ihl
    obtain ⟨y, k, hy, hgives', htruth'⟩ := ihr
    refine ⟨.binary .and x y, _, ?_, hgives.binary_of_ok hgives' fun row => rfl, fun row => ?_⟩
    · rw [Bound.ofExpr, hx, hy]
      rfl
    · rw [Scalar.truth?_ofTruth, htruth, htruth', Expr.truth?]
  | or _ _ ihl ihr =>
    obtain ⟨x, g, hx, hgives, htruth⟩ := ihl
    obtain ⟨y, k, hy, hgives', htruth'⟩ := ihr
    refine ⟨.binary .or x y, _, ?_, hgives.binary_of_ok hgives' fun row => rfl, fun row => ?_⟩
    · rw [Bound.ofExpr, hx, hy]
      rfl
    · rw [Scalar.truth?_ofTruth, htruth, htruth', Expr.truth?]

/-- The formula of a condition has the cells of values, if the operators on cells give them. -/
theorem formula (ht : t.IsBasic) (he : e.IsLogical t.schema type)
    (htype : type = .bool ∨ type = .int64) (value : Expr → Nat → Scalar)
    (hfits : ∀ e row, (value e row).fits type = true)
    (hcolumn : ∀ name row, (t.valueAt row name).fits type = true →
      value (.column name) row = t.valueAt row name)
    (hnot : ∀ e row, Cell.complement type (value e row).cell = (value (.not e) row).cell)
    (hbinary : ∀ op l r, op = .and ∨ op = .or → ∀ row fixed,
      Cell.binary type op fixed (value l row).cell (value r row).cell =
        (value (.binary op l r) row).cell) (functions : Functions) :
    ∃ f, Formula.ofExpr t.names functions .row false e = .ok f ∧ f.Gives t type (value e) := by
  have hcomplemented : type.complemented = .ok type := by
    rcases htype with rfl | rfl <;> rfl
  have hoperands {op : BinaryOp} (hop : op = .and ∨ op = .or) :
      ColumnType.operands op type type = .ok (type, type) := by
    rcases hop with rfl | rfl <;> rcases htype with rfl | rfl <;> rfl
  have hpromised {op : BinaryOp} (hop : op = .and ∨ op = .or) (l r : Bool) :
      ColumnType.promised op (type, l) (type, r) = .ok type := by
    rcases hop with rfl | rfl <;> rcases htype with rfl | rfl <;> cases l <;> cases r <;> rfl
  have hjoined {op : BinaryOp} (hop : op = .and ∨ op = .or) {l r : Expr}
      (hl : ∃ f, Formula.ofExpr t.names functions .row false l = .ok f ∧ f.Gives t type (value l))
      (hr : ∃ f, Formula.ofExpr t.names functions .row false r = .ok f ∧ f.Gives t type (value r)) :
      ∃ f, Formula.ofExpr t.names functions .row false (.binary op l r) = .ok f ∧
        f.Gives t type (value (.binary op l r)) := by
    obtain ⟨f, hf, hgives⟩ := hl
    obtain ⟨f', hf', hgives'⟩ := hr
    refine ⟨.binary op f f', ?_, hgives.binary_of_cell hgives' (hoperands hop) (hpromised hop)
      (hfits _) (hbinary op l r hop)⟩
    rw [Formula.ofExpr, hf, hf']
    rfl
  induction he with
  | @column name c hname htype' =>
    obtain ⟨column, hresolve, hc, rfl, hvalue⟩ := exists_column hname htype'
    have hgives := Formula.Gives.column ht hc (Table.typeOf_of_column hc)
    refine ⟨.column c, ?_, hgives.congr fun row => ?_⟩
    · rw [Formula.ofExpr, hresolve]
      rfl
    · rw [hcolumn name row (hvalue row ▸ hgives.fits row), hvalue]
  | not _ ih =>
    obtain ⟨f, hf, hgives⟩ := ih
    refine ⟨.not f, ?_, hgives.not_of_cell hcomplemented (hfits _) (hnot _)⟩
    rw [Formula.ofExpr, hf]
    rfl
  | and _ _ ihl ihr => exact hjoined (.inl rfl) ihl ihr
  | or _ _ ihl ihr => exact hjoined (.inr rfl) ihl ihr

/-- The formula of a condition on truth values has what the condition says. -/
theorem formula_bool (ht : t.IsBasic) (he : e.IsLogical t.schema .bool) (functions : Functions) :
    ∃ f, Formula.ofExpr t.names functions .row false e = .ok f ∧ f.Gives t .bool fun row =>
      .ofTruth (e.truth? fun name => (t.valueAt row name).truth?) := by
  refine he.formula ht (.inl rfl) (fun e row =>
    .ofTruth (e.truth? fun name => (t.valueAt row name).truth?)) (fun e row => Scalar.fits_ofTruth _)
    (fun name row h => Scalar.ofTruth_truth? h) (fun e row => ?_) (fun op l r hop row fixed => ?_)
    functions
  · rw [Scalar.cell_complement (Scalar.fits_ofTruth _), Scalar.complement, Scalar.truth?_ofTruth,
      Expr.truth?]
  · rw [Scalar.cell_judged (.inr ⟨hop, rfl⟩) (Scalar.fits_ofTruth _) (Scalar.fits_ofTruth _)]
    rcases hop with rfl | rfl
    · rw [Scalar.judged_and, Scalar.truth?_ofTruth, Scalar.truth?_ofTruth, Expr.truth?]
    · rw [Scalar.judged_or, Scalar.truth?_ofTruth, Scalar.truth?_ofTruth, Expr.truth?]

/-- The formula of a condition on whole numbers has the bits of the condition. -/
theorem formula_int64 (ht : t.IsBasic) (he : e.IsLogical t.schema .int64) (functions : Functions) :
    ∃ f, Formula.ofExpr t.names functions .row false e = .ok f ∧ f.Gives t .int64 fun row =>
      .ofBits (e.bits? fun name => (t.valueAt row name).bits?) := by
  refine he.formula ht (.inr rfl) (fun e row =>
    .ofBits (e.bits? fun name => (t.valueAt row name).bits?)) (fun e row => Scalar.fits_ofBits _)
    (fun name row h => Scalar.ofBits_bits? h) (fun e row => ?_) (fun op l r hop row fixed => ?_)
    functions
  · rw [Scalar.complement_ofBits, Expr.bits?]
  · rcases hop with rfl | rfl
    · rw [Scalar.binary_and_ofBits, Expr.bits?]
    · rw [Scalar.binary_or_ofBits, Expr.bits?]

end Expr.IsLogical

/-! ## Filters -/

namespace Table

variable {t : Table}

/-- The cells that a filter keeps of a column. -/
theorem filter_cells {c : Column} {n : Nat} (hc : c.cells.length = n) (p : Nat → Bool) :
    ((c.cells.zip ((List.range n).map p)).filter Prod.snd).map Prod.fst =
      ((List.range n).filter p).map fun row => c.cells[row]?.getD .null := by
  have hcells : c.cells = (List.range n).map fun row => c.cells[row]?.getD .null := by
    refine List.ext_getElem (by simp [hc]) fun row h₁ h₂ => ?_
    simp [List.getElem?_eq_getElem h₁]
  conv_lhs => rw [hcells, List.zip_map', List.filter_map, List.map_map]
  rfl

/-- Two filters that treat equal rows alike and give the same table keep the same rows: the row that
the one keeps at some place is like the row that the other keeps there. -/
theorem imp_of_filter_eq (ht : t.IsRectangular) {p q : Nat → Bool}
    (hq : ∀ i j, (∀ c ∈ t.columns, c.cells[i]?.getD .null = c.cells[j]?.getD .null) → q i = q j)
    (h : t.filter ((List.range t.height).map p) = t.filter ((List.range t.height).map q))
    {row : Nat} (hrow : row < t.height) (hp : p row = true) : q row = true := by
  have hcells : ∀ c ∈ t.columns,
      ((List.range t.height).filter p).map (fun row => c.cells[row]?.getD .null) =
        ((List.range t.height).filter q).map fun row => c.cells[row]?.getD .null := by
    intro c hc
    have hcolumn := List.map_inj_left.1 (congrArg Table.columns h) c hc
    rw [← filter_cells (ht c hc), ← filter_cells (ht c hc)]
    exact congrArg Column.cells hcolumn
  obtain ⟨place, hplace, hget⟩ := List.mem_iff_getElem.1
    (List.mem_filter.2 ⟨List.mem_range.2 hrow, hp⟩)
  have hcolumns : t.columns ≠ [] := by
    intro hnil
    simp [height, hnil] at hrow
  obtain ⟨c, hc⟩ := List.exists_mem_of_ne_nil _ hcolumns
  have hlength : ((List.range t.height).filter p).length =
      ((List.range t.height).filter q).length := by
    simpa using congrArg List.length (hcells c hc)
  have hplace' := hlength ▸ hplace
  have hlike : q row = q ((List.range t.height).filter q)[place] := by
    refine hq _ _ fun c hc => ?_
    have hat := congrArg (fun cells => cells[place]?) (hcells c hc)
    simpa [hplace, hplace', hget] using hat
  rw [hlike]
  exact (List.mem_filter.1 (List.getElem_mem hplace')).2

/-- Filters that treat equal rows alike give the same table just if they keep the same rows. -/
theorem filter_eq_iff (ht : t.IsRectangular) {p q : Nat → Bool}
    (hp : ∀ i j, (∀ c ∈ t.columns, c.cells[i]?.getD .null = c.cells[j]?.getD .null) → p i = p j)
    (hq : ∀ i j, (∀ c ∈ t.columns, c.cells[i]?.getD .null = c.cells[j]?.getD .null) → q i = q j) :
    t.filter ((List.range t.height).map p) = t.filter ((List.range t.height).map q) ↔
      ∀ row < t.height, p row = q row := by
  refine ⟨fun h row hrow => ?_, fun h => ?_⟩
  · rw [Bool.eq_iff_iff]
    exact ⟨imp_of_filter_eq ht hq h hrow, imp_of_filter_eq ht hp h.symm hrow⟩
  · rw [List.map_congr_left fun row hrow => h row (List.mem_range.1 hrow)]

/-- Where the cells are equal the values are. -/
theorem valueAt_congr {i j : Nat}
    (h : ∀ c ∈ t.columns, c.cells[i]?.getD .null = c.cells[j]?.getD .null) :
    t.valueAt i = t.valueAt j := by
  have hvalue (c : Column) (row : Nat) :
      c.value row = Cell.scalar c.type (c.cells[row]?.getD .null) := by
    rw [Column.value, Column.scalars, List.getElem?_map]
    cases c.cells[row]? <;> rfl
  funext name
  unfold valueAt
  cases hc : (do t.column (← Name.resolve name t.names) : Except Fault Column) with
  | error f => rfl
  | ok c =>
    obtain ⟨source, -, hc⟩ := bind_eq_ok.1 hc
    dsimp only
    rw [hvalue, hvalue, h c (mem_of_column hc).1]

end Table

section

variable (functions : Functions) {r : Relation} {t : Table} {e : Expr} {type : ColumnType}

/-- On tables at hand a condition keeps the rows in which it says yes. -/
theorem Expr.IsLogical.eager_filter (he : e.IsLogical t.schema type) (hr : r.StandsFor t) :
    (do (← Engine.eager.filter functions e r).collect) =
      .ok (t.filter ((List.range t.height).map (t.affirms e))) := by
  obtain ⟨x, g, hx, hgives, htruth⟩ := he.bound functions
  have hfilter := Eager.filter_of_gives hx hgives
  simp only [Scalar.holds, htruth] at hfilter
  rw [Engine.filter, Engine.apply, hr.collect, ok_bind, hfilter]
  rfl

/-- A plan keeps the rows in which the formula of a condition says yes. -/
theorem Engine.deferred_filter_of_gives (hr : r.StandsFor t) {f : Formula} {g : Nat → Scalar}
    (hf : Formula.ofExpr t.names functions .row false e = .ok f) (h : f.Gives t type g)
    (htype : type.hasTruth = true) :
    (do (← Engine.deferred.filter functions e r).collect) =
      .ok (t.filter ((List.range t.height).map fun row => (g row).holds)) := by
  obtain ⟨q, hq, hstands⟩ := Deferred.filter_of_gives hr hf h htype
  rw [Engine.filter, Engine.apply, hq]
  exact hstands.collect

/-- A plan whose columns hold truth values keeps the rows in which a condition says yes. -/
theorem Expr.IsLogical.deferred_filter_bool (he : e.IsLogical t.schema .bool) (ht : t.IsBasic)
    (hr : r.StandsFor t) :
    (do (← Engine.deferred.filter functions e r).collect) =
      .ok (t.filter ((List.range t.height).map (t.affirms e))) := by
  obtain ⟨f, hf, hgives⟩ := he.formula_bool ht functions
  rw [Engine.deferred_filter_of_gives functions hr hf hgives rfl]
  simp only [Scalar.holds, Scalar.truth?_ofTruth]
  rfl

/-- A plan whose columns hold whole numbers keeps the rows in which a condition says yes at some
place of their bits. -/
theorem Expr.IsLogical.deferred_filter_int64 (he : e.IsLogical t.schema .int64) (ht : t.IsBasic)
    (hr : r.StandsFor t) :
    (do (← Engine.deferred.filter functions e r).collect) =
      .ok (t.filter ((List.range t.height).map (t.affirmsInBits e))) := by
  obtain ⟨f, hf, hgives⟩ := he.formula_int64 ht functions
  rw [Engine.deferred_filter_of_gives functions hr hf hgives rfl]
  simp only [he.holds_ofBits]

/-- Both engines keep the rows in which a condition on truth values says yes. For a condition on
whole numbers the one engine does that too, and the other one keeps the rows in which all columns of
the condition are known and it says yes at some place of their bits. So they give the same table
just if these are the same rows. -/
theorem filter_logical_agree_iff (he : e.IsLogical t.schema type)
    (htype : type = .bool ∨ type = .int64) (ht : t.IsBasic) (hr : r.StandsFor t) :
    (do (← Engine.eager.filter functions e r).collect) =
      .ok (t.filter ((List.range t.height).map (t.affirms e))) ∧
    (do (← Engine.deferred.filter functions e r).collect) =
      .ok (t.filter ((List.range t.height).map
        (if type = .bool then t.affirms e else t.affirmsInBits e))) ∧
    ((do (← Engine.eager.filter functions e r).collect) =
        (do (← Engine.deferred.filter functions e r).collect) ↔
      type = .bool ∨ ∀ row < t.height, t.affirms e row = t.affirmsInBits e row) := by
  have heager := he.eager_filter functions hr
  rcases htype with rfl | rfl
  · have hdeferred := he.deferred_filter_bool functions ht hr
    refine ⟨heager, hdeferred, iff_of_true ?_ (.inl rfl)⟩
    rw [heager, hdeferred]
  · have hdeferred := he.deferred_filter_int64 functions ht hr
    refine ⟨heager, hdeferred, ?_⟩
    have hsame := Table.filter_eq_iff ht.rectangular (p := t.affirms e) (q := t.affirmsInBits e)
      (fun i j h => by rw [Table.affirms, Table.valueAt_congr h, ← Table.affirms])
      (fun i j h => by rw [Table.affirmsInBits, Table.valueAt_congr h, ← Table.affirmsInBits])
    rw [heager, hdeferred, Except.ok.injEq, hsame]
    simp

end

/-- Two columns of whole numbers. -/
def amounts : Table :=
  ⟨[⟨"k", .int64, [Scalar.int 2, .int 0, .null].map Scalar.cell⟩,
    ⟨"j", .int64, [Scalar.int 1, .int 0, .null].map Scalar.cell⟩]⟩

theorem isBasic_amounts : amounts.IsBasic := by
  refine ⟨by decide, by unfold Table.IsRectangular; decide, ?_⟩
  simp only [amounts, List.mem_cons, List.not_mem_nil, or_false, forall_eq_or_imp, forall_eq]
  exact ⟨Column.isBasic_of_scalars rfl (by decide), Column.isBasic_of_scalars rfl (by decide)⟩

/-- The condition `k OR j`. -/
def anyAmount : Expr :=
  .binary .or (.column "k") (.column "j")

theorem isLogical_anyAmount : anyAmount.IsLogical amounts.schema .int64 :=
  .or (.column (c := "k") (by decide) (by rfl)) (.column (c := "j") (by decide) (by rfl))

theorem any_amount_agrees :
    (do (← Engine.eager.filter .builtin anyAmount (.frame amounts)).collect) =
      (do (← Engine.deferred.filter .builtin anyAmount (.frame amounts)).collect) :=
  (filter_logical_agree_iff .builtin (r := .frame amounts) isLogical_anyAmount (.inr rfl)
    isBasic_amounts (.scan amounts)).2.2.2 (.inr (by decide +kernel))

/-- The condition `NOT k` keeps the row of a zero on both engines, and that of a two on one of them.
-/
theorem opposite_of_amount_parts :
    (do (← Engine.eager.filter .builtin (.not (.column "k")) (.frame amounts)).collect) =
        .ok (amounts.take [1]) ∧
      (do (← Engine.deferred.filter .builtin (.not (.column "k")) (.frame amounts)).collect) =
        .ok (amounts.take [0, 1]) ∧
      amounts.take [1] ≠ amounts.take [0, 1] :=
  ⟨by rfl, by rfl, fun h => absurd (congrArg Table.height h) (by decide)⟩

end TableQuery
