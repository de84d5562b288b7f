import TableQuery.Function.Builtin
import TableQuery.Proofs.Columns
import TableQuery.Proofs.Tables
import TableQuery.Proofs.WholeDoubles

/-!
# What becomes of computed values

The eager engine computes values, makes a column of them, and gives it the type that the expression
is promised in. The column keeps the values just if that type has room for them: whole numbers have
to lie within the bounds of the type, and a decimal must have digits enough. A value without a place
becomes a missing cell. Whole numbers that become doubles stay the same if there is a double for
each, as there is up to `2 ^ 53`.
-/

namespace TableQuery

namespace Scalar

/-- Whether a value is a whole number or missing. -/
def isWhole : Scalar → Bool
  | .null | .int _ => true
  | _ => false

variable {x : Scalar}

theorem isWhole_iff : x.isWhole = true ↔ x.kind ≠ .bool ∧ x.kind ≠ .float ∧ x.kind ≠ .str := by
  cases x <;> simp [isWhole, kind]

theorem not_isWhole {k : Kind} (hnull : k ≠ .null) (hint : k ≠ .int) (h : x.kind = k) :
    x.isWhole = false := by
  subst h
  cases x <;> simp_all [isWhole, kind]

theorem eq_null_of_kind (hint : x.kind ≠ .int) (h : x.isWhole = true) : x = .null := by
  cases x <;> simp_all [isWhole, kind]

theorem eq_bool_of_kind (hint : x.kind ≠ .int) (hfloat : x.kind ≠ .float) (hstr : x.kind ≠ .str) :
    x = .null ∨ ∃ b, x = .bool b := by
  cases x <;> simp_all [kind]

theorem isSome_toFloat?_of_kind (hstr : x.kind ≠ .str) : x = .null ∨ x.toFloat?.isSome := by
  cases x <;> simp_all [kind, toFloat?]

end Scalar

/-- Whether a cell of the given type is a whole number. -/
def Cell.isNumber (type : ColumnType) (i : Int) : Cell → Bool
  | .int j =>
    match type with
    | .decimal _ scale => j = i * Nat.pow 10 scale
    | _ => j = i
  | .float x => Number.integral? x = some i
  | _ => false

namespace ColumnType

/-- Whether a decimal has digits enough for a number, cut off behind its last place. -/
def hasDigits (precision : Option Nat) (scale : Nat) (y : Float) : Bool :=
  let units := y * Float.ofNat (Nat.pow 10 scale)
  (Number.integral? (if units < 0.0 then units.ceil else units.floor)).any fun i =>
    i.natAbs < Nat.pow 10 (precision.getD 38)

/-- Whether a type has a place for a value: whole numbers have bounds, decimals so many digits. -/
def hasPlace (type : ColumnType) (x : Scalar) : Bool :=
  match type, x with
  | .decimal precision scale, x => x.toFloat?.all (hasDigits precision scale)
  | type, .int i => type.bounds?.all fun (low, high) => low ≤ i.toInt ∧ i.toInt ≤ high
  | _, _ => true

theorem hasPlace_null (type : ColumnType) : type.hasPlace .null = true := by
  cases type <;> rfl

/-- Whether the number of a type that is nearest to a whole number is that number. -/
def isExact (type : ColumnType) (i : Int) : Bool :=
  match type with
  | .float64 => Number.integral? (Float.ofInt i) = some i
  | .float32 => Number.integral? (Number.toSingle (Float.ofInt i)) = some i
  | _ => true

/-- A type has a place for each of some values; if they are whole numbers, it has these. -/
structure HasRoom (type : ColumnType) (xs : List Scalar) : Prop where
  places : ∀ x ∈ xs, type.hasPlace x = true
  exact : (∀ x ∈ xs, x.isWhole = true) → ∀ i, .int i ∈ xs → type.isExact i.toInt = true

/-- Every integer of 64 bits has its place among them. -/
theorem hasPlace_int64 (i : Int64) : ColumnType.int64.hasPlace (.int i) = true := by
  simpa [hasPlace, bounds?] using ⟨i.minValue_le_toInt, i.toInt_le⟩

/-- The types that computed columns have at first. -/
def isComputed (type : ColumnType) : Bool :=
  type ∈ [.null, .bool, .int64, .float64, .str]

/-- Every value has a place in the types of computed columns. -/
theorem hasPlace_of_isComputed {type : ColumnType} (h : type.isComputed = true) (x : Scalar) :
    type.hasPlace x = true := by
  cases type with
  | int64 =>
    cases x with
    | int i => exact hasPlace_int64 i
    | _ => rfl
  | null | bool | float64 | str => cases x <;> rfl
  | _ => simp [isComputed] at h

/-- But for doubles these types have room for all values. -/
theorem hasRoom_of_isComputed {type : ColumnType} (h : type.isComputed = true)
    (hfloat : type ≠ .float64) (xs : List Scalar) : type.HasRoom xs := by
  refine ⟨fun x _ => hasPlace_of_isComputed h x, fun _ i _ => ?_⟩
  cases type with
  | float64 => exact absurd rfl hfloat
  | float32 => simp [isComputed] at h
  | _ => rfl

/-- Doubles have room for whole numbers up to `2 ^ 53`. -/
theorem hasRoom_float64 {xs : List Scalar} (h : ∀ i, .int i ∈ xs → i.toInt.natAbs ≤ 2 ^ 53) :
    ColumnType.float64.HasRoom xs := by
  refine ⟨fun x _ => hasPlace_of_isComputed rfl x, fun _ i hi => ?_⟩
  rw [isExact, Number.integral?_ofInt (h i hi), decide_eq_true rfl]

end ColumnType

/-- The cells of a column are missing just where the values are; if these are whole numbers, the
cells are the same numbers. -/
structure Column.Keeps (c : Column) (xs : List Scalar) : Prop where
  nulls : c.cells.map Cell.isNull = xs.map Scalar.isNull
  numbers : (∀ x ∈ xs, x.isWhole = true) →
    List.Forall₂ (fun x cell => ∀ i, x = .int i → cell.isNumber c.type i.toInt = true) xs c.cells

namespace Column

/-! ## The column of computed values -/

/-- What the type of a column of values says about them. -/
inductive KindsOf (xs : List Scalar) : ColumnType → Prop where
  | null (h : ∀ x ∈ xs, x = .null) : KindsOf xs .null
  | int (h : ∀ x ∈ xs, x.isWhole = true) : KindsOf xs .int64
  /-- Numbers, a double among them. -/
  | float (h : ∀ x ∈ xs, x = .null ∨ x.toFloat?.isSome) (hx : ∃ x ∈ xs, x.isWhole = false) :
    KindsOf xs .float64
  | bool (hx : ∃ x ∈ xs, x.isWhole = false) (h : ∀ x ∈ xs, x = .null ∨ ∃ b, x = .bool b) :
    KindsOf xs .bool
  | text (hx : ∃ x ∈ xs, x.isWhole = false) : KindsOf xs .str

theorem KindsOf.isComputed {xs : List Scalar} {type : ColumnType} (h : KindsOf xs type) :
    type.isComputed = true := by
  cases h <;> rfl

theorem contains_kind_eq_false {xs : List Scalar} {k : Scalar.Kind} :
    (xs.map Scalar.kind).contains k = false ↔ ∀ x ∈ xs, x.kind ≠ k := by
  simp [List.contains_eq_mem]

theorem exists_of_contains_kind {xs : List Scalar} {k : Scalar.Kind}
    (h : (xs.map Scalar.kind).contains k = true) : ∃ x ∈ xs, x.kind = k :=
  List.mem_map.1 (List.contains_iff_mem.1 h)

theorem kindsOf_typeOfKinds (xs : List Scalar) : KindsOf xs (typeOfKinds (xs.map Scalar.kind)) := by
  dsimp only [typeOfKinds]
  split
  · next hbool hint hfloat hstr =>
    rw [contains_kind_eq_false] at hbool hint hfloat hstr
    exact .null fun x hx => Scalar.eq_null_of_kind (hint x hx)
      (Scalar.isWhole_iff.2 ⟨hbool x hx, hfloat x hx, hstr x hx⟩)
  · next hbool hint hfloat hstr =>
    obtain ⟨x, hx, hk⟩ := exists_of_contains_kind hbool
    rw [contains_kind_eq_false] at hint hfloat hstr
    exact .bool ⟨x, hx, Scalar.not_isWhole (by decide) (by decide) hk⟩ fun x hx =>
      Scalar.eq_bool_of_kind (hint x hx) (hfloat x hx) (hstr x hx)
  · next hbool hint hfloat hstr =>
    rw [contains_kind_eq_false] at hbool hfloat hstr
    exact .int fun x hx => Scalar.isWhole_iff.2 ⟨hbool x hx, hfloat x hx, hstr x hx⟩
  · next _ hfloat hstr =>
    obtain ⟨x, hx, hk⟩ := exists_of_contains_kind hfloat
    rw [contains_kind_eq_false] at hstr
    exact .float (fun x hx => Scalar.isSome_toFloat?_of_kind (hstr x hx))
      ⟨x, hx, Scalar.not_isWhole (by decide) (by decide) hk⟩
  · next hnull _ hint =>
    refine .text (by_contra fun hall => ?_)
    have none_of (k : Scalar.Kind) (hk : k ≠ .null) (hk' : k ≠ .int) :
        (xs.map Scalar.kind).contains k = false :=
      contains_kind_eq_false.2 fun x hx hxk => hall ⟨x, hx, Scalar.not_isWhole hk hk' hxk⟩
    have hbool' := none_of .bool (by decide) (by decide)
    have hfloat' := none_of .float (by decide) (by decide)
    have hstr' := none_of .str (by decide) (by decide)
    cases hint' : (xs.map Scalar.kind).contains .int with
    | false => exact hnull hbool' hint' hfloat' hstr'
    | true => exact hint hbool' hint' hfloat' hstr'

/-- Whether a value is missing shows in its cell. -/
theorem isNull_cellOf {xs : List Scalar} {type : ColumnType} (h : KindsOf xs type) {x : Scalar}
    (hx : x ∈ xs) : (cellOf type x).isNull = x.isNull := by
  cases h with
  | null h =>
    obtain rfl := h x hx
    rfl
  | int h =>
    have hwhole := h x hx
    cases x with
    | null | int i => rfl
    | _ => cases hwhole
  | float h _ =>
    rcases h x hx with rfl | hsome
    · rfl
    · cases x with
      | null | str s => cases hsome
      | _ => rfl
  | bool _ h =>
    rcases h x hx with rfl | ⟨b, rfl⟩ <;> rfl
  | text _ => cases x <;> rfl

/-- A column keeps values whose cells are missing where the values have no place, and are the same
numbers where these are exact. -/
theorem keeps_iff_hasRoom {c : Column} {xs : List Scalar} {cell : Scalar → Cell}
    (hcells : c.cells = xs.map cell)
    (hnull : ∀ x ∈ xs, (cell x).isNull = (x.isNull || !c.type.hasPlace x))
    (hnumber : (∀ x ∈ xs, x.isWhole = true) → ∀ i, .int i ∈ xs → (cell (.int i)).isNull = false →
      (cell (.int i)).isNumber c.type i.toInt = c.type.isExact i.toInt) :
    c.Keeps xs ↔ c.type.HasRoom xs := by
  have hplaces : c.cells.map Cell.isNull = xs.map Scalar.isNull ↔
      ∀ x ∈ xs, c.type.hasPlace x = true := by
    rw [hcells, List.map_map, List.map_inj_left]
    refine forall₂_congr fun x hx => ?_
    rw [Function.comp_apply, hnull x hx]
    cases x with
    | null => simp [ColumnType.hasPlace_null, Scalar.isNull]
    | _ => simp [Scalar.isNull]
  have hnumbers (hall : ∀ x ∈ xs, c.type.hasPlace x = true) (hwhole : ∀ x ∈ xs, x.isWhole = true) :
      List.Forall₂ (fun x cell => ∀ i, x = .int i → cell.isNumber c.type i.toInt = true) xs
        c.cells ↔ ∀ i, .int i ∈ xs → c.type.isExact i.toInt = true := by
    rw [hcells, List.forall₂_map_right_iff, List.forall₂_same]
    constructor
    · intro h i hi
      rw [← hnumber hwhole i hi (by rw [hnull _ hi, hall _ hi]; rfl)]
      exact h _ hi i rfl
    · rintro h _ hx i rfl
      rw [hnumber hwhole i hx (by rw [hnull _ hx, hall _ hx]; rfl)]
      exact h i hx
  constructor
  · intro h
    have hall := hplaces.1 h.nulls
    exact ⟨hall, fun hwhole => (hnumbers hall hwhole).1 (h.numbers hwhole)⟩
  · intro h
    exact ⟨hplaces.2 h.places, fun hwhole => (hnumbers h.places hwhole).2 (h.exact hwhole)⟩

end Column

/-! ## Conforming to the promised type -/

namespace Cell

theorem isNull_fit (type : ColumnType) (i : Int) :
    (fit type i).isNull = !type.bounds?.all fun (low, high) => low ≤ i ∧ i ≤ high := by
  unfold fit
  cases type.bounds? with
  | none => rfl
  | some bounds =>
    by_cases h : bounds.1 ≤ i ∧ i ≤ bounds.2
    · simp [h, isNull]
    · simp only [h, if_false, Option.all_some, decide_false]
      rfl

theorem isNumber_fit {type : ColumnType} (htype : type.isDecimal = false) {i : Int}
    (h : (fit type i).isNull = false) : (fit type i).isNumber type i = true := by
  have hfit : fit type i = .int i := by
    unfold fit at h ⊢
    split
    · split
      · rfl
      · simp_all [isNull]
    · rfl
  rw [hfit]
  cases type with
  | decimal _ _ => cases htype
  | _ => simp [isNumber]

/-- A whole number stays itself, within the bounds of the other type. -/
theorem cast_int {target : ColumnType}
    (htarget : target ≠ .int64 ∧ (target.isInteger ∨ target = .date)) (i : Int) :
    cast .int64 target (.int i) = fit target i := by
  obtain ⟨hne, htarget⟩ := htarget
  cases target with
  | int64 => exact absurd rfl hne
  | int32 | uint32 | uint64 | date => rfl
  | _ => simp [ColumnType.isInteger] at htarget

/-- A whole number of 64 bits becomes missing in a type of numbers or dates just if it lies beyond
the bounds of the type. -/
theorem isNull_cast_int {target : ColumnType}
    (htarget : ColumnType.int64.takesOn target = true) (i : Int64) :
    (cast .int64 target (.int i.toInt)).isNull = !target.hasPlace (.int i) := by
  cases target with
  | null | bool | str | binary | decimal _ _ => cases htarget
  | float32 | float64 => rfl
  | int64 =>
    rw [ColumnType.hasPlace_int64]
    rfl
  | int32 | uint32 | uint64 | date =>
    rw [cast_int (by decide), isNull_fit]
    rfl

theorem isNumber_cast_int {target : ColumnType}
    (htarget : ColumnType.int64.takesOn target = true) (i : Int64)
    (h : (cast .int64 target (.int i.toInt)).isNull = false) :
    (cast .int64 target (.int i.toInt)).isNumber target i.toInt = target.isExact i.toInt := by
  cases target with
  | null | bool | str | binary | decimal _ _ => cases htarget
  | float32 | float64 => rfl
  | int64 => simp [cast, isNumber, ColumnType.isExact]
  | int32 | uint32 | uint64 | date =>
    rw [cast_int (by decide)] at h ⊢
    exact isNumber_fit rfl h

theorem isNull_floatToDecimal (precision : Option Nat) (scale : Nat) (y : Float) :
    (floatToDecimal precision scale y).isNull = !ColumnType.hasDigits precision scale y := by
  unfold floatToDecimal ColumnType.hasDigits
  dsimp only
  split
  · next i hi =>
    rw [hi, Option.any_some, fitDecimal]
    split <;> simp_all [isNull]
  · next hnone =>
    rw [hnone]
    rfl

/-- A double becomes missing in a type of doubles or decimals just if it has no place there. -/
theorem isNull_cast_float {target : ColumnType}
    (htarget : ColumnType.float64.takesOn target = true) {x : Scalar} {y : Float}
    (hx : x.toFloat? = some y) :
    (cast .float64 target (.float y)).isNull = !target.hasPlace x := by
  cases target with
  | float32 | float64 => cases x <;> rfl
  | decimal precision scale =>
    rw [ColumnType.hasPlace, hx, Option.all_some]
    exact isNull_floatToDecimal precision scale y
  | _ => cases htarget

end Cell

namespace Eager

variable {fs : Functions} {scope : Scope} {e : Expr} {t : Table}

/-- A column of computed values keeps its type, or is cast to one that they may take on. -/
theorem conform_cases (fs : Functions) (scope : Scope) (e : Expr) (t : Table) (c : Column) :
    conform fs scope e t c = c ∨
      ∃ target, c.type.takesOn target = true ∧ conform fs scope e t c = c.cast target := by
  unfold conform
  split
  · exact .inl rfl
  · next target _ =>
    split
    · next htarget => exact .inr ⟨target, htarget, rfl⟩
    · exact .inl rfl

/-- A cell of computed values becomes missing just if there is no place for its value. -/
theorem isNull_cast_of_kindsOf {xs : List Scalar} {type target : ColumnType}
    (h : Column.KindsOf xs type) (htarget : type.takesOn target = true) {x : Scalar}
    (hx : x ∈ xs) :
    (Cell.cast type target (Column.cellOf type x)).isNull = (x.isNull || !target.hasPlace x) := by
  have hnull : (Cell.cast type target (Column.cellOf type .null)).isNull =
      (Scalar.null.isNull || !target.hasPlace .null) := by
    simp [Column.cellOf, Cell.cast, Cell.isNull, Scalar.isNull]
  cases h with
  | null h =>
    rw [h x hx]
    exact hnull
  | int h =>
    have hwhole := h x hx
    cases x with
    | null => exact hnull
    | int i => exact Cell.isNull_cast_int htarget i
    | _ => cases hwhole
  | float h _ =>
    rcases h x hx with rfl | hsome
    · exact hnull
    · obtain ⟨y, hy⟩ := Option.isSome_iff_exists.1 hsome
      have hcell : Column.cellOf .float64 x = .float y := by
        cases x with
        | null => cases hy
        | _ => simp [Column.cellOf, hy]
      have hnot : x.isNull = false := by
        cases x with
        | null => cases hy
        | _ => rfl
      rw [hcell, hnot]
      exact Cell.isNull_cast_float htarget hy
  | bool _ _ => cases htarget
  | text _ => cases htarget

/-- Whole numbers are the cells of their own column. -/
theorem cellOf_int {xs : List Scalar} {type : ColumnType} (h : Column.KindsOf xs type)
    (hwhole : ∀ x ∈ xs, x.isWhole = true) {i : Int64} (hi : .int i ∈ xs) :
    type = .int64 ∧ Column.cellOf type (.int i) = .int i.toInt := by
  have hnone (hx : ∃ x ∈ xs, x.isWhole = false) : False := by
    obtain ⟨x, hx, hnot⟩ := hx
    rw [hwhole x hx] at hnot
    cases hnot
  cases h with
  | null h => cases h _ hi
  | int _ => exact ⟨rfl, rfl⟩
  | float _ hx => exact (hnone hx).elim
  | bool hx _ => exact (hnone hx).elim
  | text hx => exact (hnone hx).elim

/-- The column of computed values keeps them just if its type has room for them. -/
theorem conform_keeps_iff (name : String) (xs : List Scalar) :
    (conform fs scope e t (.ofScalars name xs)).Keeps xs ↔
      (conform fs scope e t (.ofScalars name xs)).type.HasRoom xs := by
  have hkinds := Column.kindsOf_typeOfKinds xs
  rcases conform_cases fs scope e t (.ofScalars name xs) with h | ⟨target, htarget, h⟩
  · rw [h]
    refine Column.keeps_iff_hasRoom rfl (fun x hx => ?_) fun hwhole i hi _ => ?_
    · rw [Column.isNull_cellOf hkinds hx]
      change _ = (x.isNull || !(Column.typeOfKinds (xs.map Scalar.kind)).hasPlace x)
      rw [ColumnType.hasPlace_of_isComputed hkinds.isComputed, Bool.not_true, Bool.or_false]
    · obtain ⟨htype, hcell⟩ := cellOf_int hkinds hwhole hi
      rw [hcell]
      simp [Column.ofScalars, htype, Cell.isNumber, ColumnType.isExact]
  · rw [h]
    refine Column.keeps_iff_hasRoom (c := Column.cast target _) (List.map_map ..)
      (fun x hx => ?_) fun hwhole i hi hnull => ?_
    · exact isNull_cast_of_kindsOf hkinds htarget hx
    · obtain ⟨htype, hcell⟩ := cellOf_int hkinds hwhole hi
      rw [Column.ofScalars, htype] at htarget
      rw [Function.comp_apply, hcell] at hnull ⊢
      simp only [Column.ofScalars, htype] at hnull ⊢
      exact Cell.isNumber_cast_int htarget i hnull

theorem computed_keeps_iff {name : String} {c : Column} (h : computed fs name e t = .ok c) :
    c.name = name ∧
      ∃ xs, rowValues fs e t = .ok xs ∧ (c.Keeps xs ↔ c.type.HasRoom xs) := by
  obtain ⟨xs, hxs, h⟩ := bind_eq_ok.1 h
  cases h
  exact ⟨name_conform _ _ _ _ _, xs, hxs, conform_keeps_iff name xs⟩

/-- Columns that are added under other names leave a column as it is. -/
theorem column_extend {items : List (String × Expr)} {out : Table}
    (h : extend fs items t = .ok out) {name : String} (hname : name ∉ items.map Prod.fst) :
    out.column name = t.column name := by
  induction items generalizing t with
  | nil =>
    cases h
    rfl
  | cons i items ih =>
    obtain ⟨label, e⟩ := i
    obtain ⟨t', ht', h⟩ := bind_eq_ok.1 h
    obtain ⟨c, hc, ht'⟩ := bind_eq_ok.1 ht'
    cases ht'
    obtain ⟨hne, hname⟩ := not_or.1 (mt List.mem_cons.2 hname)
    rw [ih h hname, Table.column_put, (computed_keeps_iff hc).1, if_neg hne]

/-- A column that is added is computed from the columns before it. -/
theorem exists_computed_of_extend {before behind : List (String × Expr)} {name : String} {e : Expr}
    {out : Table} (h : extend fs (before ++ (name, e) :: behind) t = .ok out) :
    ∃ t' c, extend fs before t = .ok t' ∧ computed fs name e t' = .ok c ∧
      (name ∉ behind.map Prod.fst → out.column name = .ok c) := by
  rw [extend, List.foldlM_append] at h
  obtain ⟨t', ht', h⟩ := bind_eq_ok.1 h
  rw [List.foldlM_cons] at h
  obtain ⟨u, hu, h⟩ := bind_eq_ok.1 h
  obtain ⟨c, hc, hu⟩ := bind_eq_ok.1 hu
  cases hu
  refine ⟨t', c, ht', hc, fun hname => ?_⟩
  rw [column_extend h hname, Table.column_put, (computed_keeps_iff hc).1, if_pos rfl]

/-- On the eager engine every computed column keeps its values just if its type has room for them:
the computed items of a projection, the columns added one after the other, and the computed items of
a grouped selection. The types that computed columns have at first always have room, doubles at
least for whole numbers up to `2 ^ 53`. -/
theorem computed_columns_keep_iff (fs : Functions) (t : Table) :
    (∀ items out, project fs items t = .ok out →
      List.Forall₂ (fun i c => ∀ e label, i = Selected.computed e label →
        ∃ xs, rowValues fs e t = .ok xs ∧ (c.Keeps xs ↔ c.type.HasRoom xs)) items out.columns) ∧
    (∀ before name e behind out, extend fs (before ++ (name, e) :: behind) t = .ok out →
      ∃ t' xs c, extend fs before t = .ok t' ∧ rowValues fs e t' = .ok xs ∧
        computed fs name e t' = .ok c ∧
        (name ∉ behind.map Prod.fst → out.column name = .ok c) ∧
        (c.Keeps xs ↔ c.type.HasRoom xs)) ∧
    (∀ keys items out, aggregate fs keys items t = .ok out →
      ∃ gs, groups keys t = .ok gs ∧
        List.Forall₂ (fun i c => ∀ e label, i = Reduced.aggregate e label →
          ∃ xs, groupValues fs gs e t = .ok xs ∧ (c.Keeps xs ↔ c.type.HasRoom xs))
          items out.columns) ∧
    ∀ xs, (∀ type : ColumnType, type.isComputed = true → type ≠ .float64 → type.HasRoom xs) ∧
      ((∀ i, .int i ∈ xs → i.toInt.natAbs ≤ 2 ^ 53) → ColumnType.float64.HasRoom xs) := by
  refine ⟨fun items out h => ?_, fun before name e behind out h => ?_, fun keys items out h => ?_,
    fun xs => ⟨fun _ htype hne => ColumnType.hasRoom_of_isComputed htype hne xs,
      ColumnType.hasRoom_float64⟩⟩
  · obtain ⟨_, -, h⟩ := bind_eq_ok.1 h
    obtain ⟨columns, hcolumns, h⟩ := bind_eq_ok.1 h
    cases h
    refine (mapM_eq_ok.1 hcolumns).imp ?_
    rintro _ c hc e label rfl
    exact (computed_keeps_iff hc).2
  · obtain ⟨t', c, ht', hc, hfound⟩ := exists_computed_of_extend h
    obtain ⟨-, xs, hxs, hkeeps⟩ := computed_keeps_iff hc
    exact ⟨t', xs, c, ht', hxs, hc, hfound, hkeeps⟩
  · obtain ⟨_, -, h⟩ := bind_eq_ok.1 h
    obtain ⟨gs, hgs, h⟩ := bind_eq_ok.1 h
    obtain ⟨columns, hcolumns, h⟩ := bind_eq_ok.1 h
    cases h
    refine ⟨gs, hgs, (mapM_eq_ok.1 hcolumns).imp ?_⟩
    rintro _ c hc e label rfl
    obtain ⟨xs, hxs, hc⟩ := bind_eq_ok.1 hc
    cases hc
    exact ⟨xs, hxs, conform_keeps_iff label xs⟩

/-- The greatest whole number of 32 bits, beside a missing one. -/
def extremes : Table :=
  ⟨[⟨"n", .int32, [.int 2147483647, .null]⟩]⟩

/-- `n * 2`, promised in 32 bits. -/
def doubled : Expr :=
  .binary .mul (.column "n") (.literal (.int 2))

/-- `n % 2`, promised in 32 bits as well. -/
def parity : Expr :=
  .binary .mod (.column "n") (.literal (.int 2))

/-- The sum of `n`, promised in 32 bits too. -/
def total : Expr :=
  .call "SUM" [.column "n"]

theorem extremes_keep_values :
    (∃ out c, project .builtin [.computed parity "p"] extremes = .ok out ∧ out.columns = [c] ∧
      c.Keeps [.int 1, .null]) ∧
    (∃ out c, extend .builtin ([] ++ ("p", parity) :: [("q", doubled)]) extremes = .ok out ∧
      out.column "p" = .ok c ∧ c.Keeps [.int 1, .null]) ∧
    (∃ out c, aggregate .builtin [] [.aggregate total "s"] extremes = .ok out ∧
      out.columns = [c] ∧ c.Keeps [.int 2147483647]) := by
  obtain ⟨hproject, hextend, haggregate, -⟩ := computed_columns_keep_iff .builtin extremes
  have hparity : rowValues .builtin parity extremes = .ok [.int 1, .null] := rfl
  have hroom : ColumnType.int32.HasRoom [.int 1, .null] :=
    ⟨by decide +kernel, fun _ _ _ => rfl⟩
  refine ⟨⟨⟨[⟨"p", .int32, [.int 1, .null]⟩]⟩, _, rfl, rfl, ?_⟩,
    ⟨⟨[⟨"n", .int32, [.int 2147483647, .null]⟩, ⟨"p", .int32, [.int 1, .null]⟩,
      ⟨"q", .int32, [.null, .null]⟩]⟩, _, rfl, rfl, ?_⟩,
    ⟨⟨[⟨"s", .int32, [.int 2147483647]⟩]⟩, _, rfl, rfl, ?_⟩⟩
  · obtain ⟨xs, hxs, hkeeps⟩ :=
      (List.forall₂_cons.1 (hproject [.computed parity "p"] _ rfl)).1 parity "p" rfl
    cases hparity.symm.trans hxs
    exact hkeeps.2 hroom
  · obtain ⟨t', xs, c, ht', hxs, -, hfound, hkeeps⟩ :=
      hextend [] "p" parity [("q", doubled)] _ rfl
    cases ht'
    cases hparity.symm.trans hxs
    cases hfound (by decide)
    exact hkeeps.2 hroom
  · obtain ⟨gs, hgs, hcolumns⟩ := haggregate [] [.aggregate total "s"] _ rfl
    cases hgs
    obtain ⟨xs, hxs, hkeeps⟩ := (List.forall₂_cons.1 hcolumns).1 total "s" rfl
    have htotal : groupValues .builtin [List.range extremes.height] total extremes =
      .ok [.int 2147483647] := rfl
    cases htotal.symm.trans hxs
    exact hkeeps.2 ⟨by decide +kernel, fun _ _ _ => rfl⟩

theorem doubled_loses_extreme :
    ∃ out c, project .builtin [.computed doubled "m"] extremes = .ok out ∧ out.columns = [c] ∧
      rowValues .builtin doubled extremes = .ok [.int 4294967294, .null] ∧
      c.cells.map Cell.isNull = [true, true] ∧ ¬c.Keeps [.int 4294967294, .null] := by
  refine ⟨⟨[⟨"m", .int32, [.null, .null]⟩]⟩, _, rfl, rfl, rfl, rfl, fun h => ?_⟩
  exact absurd h.nulls (by decide)

end Eager

end TableQuery
