import TableQuery.Proofs.Tables

/-!
# Columns of computed values

Values of one type, missing ones among them, make a column of that type, or of the null type if all
are missing. Conforming the column to the type then gives the values themselves as its cells.
-/

namespace TableQuery

/-- The types of whole numbers with sign in 64 bits, of texts and of truth values. -/
def ColumnType.isBasic : ColumnType → Bool
  | .int64 | .str | .bool => true
  | _ => false

namespace Scalar

/-- Whether a value is missing or of the given type. -/
def fits (type : ColumnType) : Scalar → Bool
  | .null => true
  | .int _ => type = .int64
  | .str _ => type = .str
  | .bool _ => type = .bool
  | .float _ => false

/-- The cell of a value. -/
def cell (x : Scalar) : Cell :=
  (Cell.ofScalar x).2

/-- The kind of the values of a basic type. -/
def kindOf : ColumnType → Kind
  | .int64 => .int
  | .str => .str
  | .bool => .bool
  | _ => .null

theorem kind_of_fits {type : ColumnType} {x : Scalar} (h : x.fits type = true) :
    x.kind = .null ∨ x.kind = kindOf type := by
  cases x <;> simp_all [fits, kind, kindOf]

end Scalar

namespace Column

theorem typeOfKinds_of_null {kinds : List Scalar.Kind} (h : ∀ k ∈ kinds, k = .null) :
    typeOfKinds kinds = .null := by
  have none_of (k : Scalar.Kind) (hk : k ≠ .null) : kinds.contains k = false := by
    simpa using fun hmem => hk (h k hmem)
  simp only [typeOfKinds, none_of .bool (by decide), none_of .int (by decide),
    none_of .float (by decide), none_of .str (by decide)]

theorem typeOfKinds_of_basic {type : ColumnType} (ht : type.isBasic = true)
    {kinds : List Scalar.Kind} (h : ∀ k ∈ kinds, k = .null ∨ k = Scalar.kindOf type)
    (hmem : Scalar.kindOf type ∈ kinds) : typeOfKinds kinds = type := by
  have none_of (k : Scalar.Kind) (hk : k ≠ .null) (hk' : k ≠ Scalar.kindOf type) :
      kinds.contains k = false := by
    simpa using fun hmem => (h k hmem).elim hk hk'
  have some_of : kinds.contains (Scalar.kindOf type) = true := by simpa using hmem
  have hfloat : kinds.contains Scalar.Kind.float = false :=
    none_of .float (by decide) (by cases type <;> simp [Scalar.kindOf])
  cases type with
  | int64 =>
    simp only [typeOfKinds, hfloat, none_of .bool (by decide) (by decide),
      none_of .str (by decide) (by decide), show kinds.contains Scalar.Kind.int = true from some_of]
  | str =>
    simp only [typeOfKinds, hfloat, none_of .bool (by decide) (by decide),
      none_of .int (by decide) (by decide), show kinds.contains Scalar.Kind.str = true from some_of]
  | bool =>
    simp only [typeOfKinds, hfloat, none_of .int (by decide) (by decide),
      none_of .str (by decide) (by decide), show kinds.contains Scalar.Kind.bool = true from some_of]
  | _ => cases ht

/-- The column of values of one type. -/
theorem ofScalars_of_fits {type : ColumnType} (ht : type.isBasic = true) {xs : List Scalar}
    (h : ∀ x ∈ xs, x.fits type = true) (name : String) :
    ofScalars name xs =
      ⟨name, if xs.all Scalar.isNull then .null else type, xs.map Scalar.cell⟩ := by
  have hkinds : ∀ k ∈ xs.map Scalar.kind, k = .null ∨ k = Scalar.kindOf type := by
    intro k hk
    obtain ⟨x, hx, rfl⟩ := List.mem_map.1 hk
    exact Scalar.kind_of_fits (h x hx)
  by_cases hnull : xs.all Scalar.isNull
  · have hnulls : ∀ x ∈ xs, x = .null := by
      intro x hx
      have := List.all_eq_true.1 hnull x hx
      cases x <;> simp_all [Scalar.isNull]
    have htype : typeOfKinds (xs.map Scalar.kind) = .null := by
      refine typeOfKinds_of_null fun k hk => ?_
      obtain ⟨x, hx, rfl⟩ := List.mem_map.1 hk
      rw [hnulls x hx]
      rfl
    have hcells : xs.map (cellOf .null) = xs.map Scalar.cell := by
      refine List.map_congr_left fun x hx => ?_
      rw [hnulls x hx]
      rfl
    simp only [ofScalars, htype, hcells, if_pos hnull]
  · have hmem : Scalar.kindOf type ∈ xs.map Scalar.kind := by
      obtain ⟨x, hx, hne⟩ : ∃ x ∈ xs, ¬x.isNull = true := by simpa using hnull
      refine List.mem_map.2 ⟨x, hx, (Scalar.kind_of_fits (h x hx)).resolve_left fun hk => hne ?_⟩
      cases x <;> simp_all [Scalar.kind, Scalar.isNull]
    have htype : typeOfKinds (xs.map Scalar.kind) = type :=
      typeOfKinds_of_basic ht hkinds hmem
    have hcells : xs.map (cellOf type) = xs.map Scalar.cell := by
      refine List.map_congr_left fun x hx => ?_
      have := h x hx
      cases x <;> cases type <;> simp_all [Scalar.fits, ColumnType.isBasic, cellOf, Scalar.cell,
        Cell.ofScalar, Scalar.text]
    simp only [ofScalars, htype, hcells, if_neg hnull]

end Column

namespace Eager

@[simp]
theorem name_conform (fs : Functions) (scope : Scope) (e : Expr) (t : Table) (c : Column) :
    (conform fs scope e t c).name = c.name := by
  unfold conform
  split
  · rfl
  · split <;> rfl

theorem name_of_computed {fs : Functions} {name : String} {e : Expr} {t : Table} {c : Column}
    (h : computed fs name e t = .ok c) : c.name = name := by
  obtain ⟨xs, -, h⟩ := bind_eq_ok.1 h
  cases h
  exact name_conform ..

theorem names_project {fs : Functions} {items : List Selected} {t out : Table}
    (h : project fs items t = .ok out) :
    out.names = items.map Selected.label ∧ (items.map Selected.label).Nodup := by
  obtain ⟨_, hdistinct, h⟩ := bind_eq_ok.1 h
  obtain ⟨columns, hcolumns, h⟩ := bind_eq_ok.1 h
  cases h
  refine ⟨map_of_mapM (fun i c hc => ?_) hcolumns, distinctOutputs_eq_ok.1 hdistinct⟩
  cases i with
  | column source label =>
    obtain ⟨d, -, hc⟩ := bind_eq_ok.1 hc
    cases hc
    rfl
  | computed e label => exact name_of_computed hc

theorem names_aggregate {fs : Functions} {keys : List String} {items : List Reduced}
    {t out : Table} (h : aggregate fs keys items t = .ok out) :
    out.names = items.map Reduced.label ∧ (items.map Reduced.label).Nodup := by
  obtain ⟨_, hdistinct, h⟩ := bind_eq_ok.1 h
  obtain ⟨gs, -, h⟩ := bind_eq_ok.1 h
  obtain ⟨columns, hcolumns, h⟩ := bind_eq_ok.1 h
  cases h
  refine ⟨map_of_mapM (fun i c hc => ?_) hcolumns, distinctOutputs_eq_ok.1 hdistinct⟩
  cases i with
  | key column label =>
    obtain ⟨d, -, hc⟩ := bind_eq_ok.1 hc
    cases hc
    rfl
  | aggregate e label =>
    obtain ⟨xs, -, hc⟩ := bind_eq_ok.1 hc
    cases hc
    exact name_conform ..

/-- Values of the type of their expression are the cells of its column. -/
theorem conform_of_fits {fs : Functions} {scope : Scope} {e : Expr} {t : Table}
    {type : ColumnType} (he : Formula.typeOfExpr e t.schema fs scope = .ok type)
    (ht : type.isBasic = true) {xs : List Scalar} (h : ∀ x ∈ xs, x.fits type = true)
    (name : String) :
    conform fs scope e t (.ofScalars name xs) = ⟨name, type, xs.map Scalar.cell⟩ := by
  rw [conform, he, Column.ofScalars_of_fits ht h]
  dsimp only
  by_cases hnull : xs.all Scalar.isNull
  · have hcells : xs.map Scalar.cell = (xs.map Scalar.cell).map (Cell.cast .null type) := by
      rw [List.map_map]
      refine List.map_congr_left fun x hx => ?_
      have := List.all_eq_true.1 hnull x hx
      cases x <;> simp_all [Scalar.isNull, Scalar.cell, Cell.ofScalar, Cell.cast, Cell.isNull]
    simp [hnull, ColumnType.takesOn, Column.cast, ← hcells]
  · have hcells : (xs.map Scalar.cell).map (Cell.cast type type) = xs.map Scalar.cell := by
      simp [Cell.cast]
    simp only [if_neg hnull, Column.cast, hcells, ite_self]

end Eager

end TableQuery
