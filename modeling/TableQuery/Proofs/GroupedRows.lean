import TableQuery.Function.Builtin
import TableQuery.Proofs.Columns
import TableQuery.Proofs.Groups
import TableQuery.Proofs.Tables

/-!
# Grouping on the eager engine

A grouped selection has one row for each group of rows with the same keys. What stands there is said
column by column: a key column holds the cell of the first row of each group, any other one what its
expression gives for exactly the rows of the group. Without keys all rows are one group, even if
there are none.
-/

namespace TableQuery

/-- What makes a row a member of its group: the identities of its cells in the key columns. -/
def Table.keyOf (keys : List String) (t : Table) (row : Nat) : List Scalar.Identity :=
  keys.map fun name =>
    match t.column name with
    | .ok c => (c.scalars[row]?.getD .null).identity
    | .error _ => .null

/-- The column of an item of a grouped selection, with one cell for each of the given groups. -/
inductive IsReduced (fs : Functions) (t : Table) (gs : List (List Nat)) :
    Reduced → Column → Prop where
  /-- The cell of a key is the one of the first row. -/
  | key {column label : String} {source : Column} (h : t.column column = .ok source) :
      IsReduced fs t gs (.key column label)
        ⟨label, source.type, gs.map fun g => (g.head?.bind fun row => source.cells[row]?).getD .null⟩
  /-- Any other value is the one of the expression for the rows of the group; the column then gets
  the type of the expression. -/
  | aggregate {e : Expr} {label : String} {x : Bound} {d : Loaded} {values : List Scalar}
      (hx : Bound.bind e t.names fs .group = .ok x)
      (hd : Loaded.ofTable t x.referenced = .ok d)
      (hvalues : List.Forall₂ (fun g v => x.eval d (.group g) = .ok (.one v)) gs values) :
      IsReduced fs t gs (.aggregate e label)
        (Eager.conform fs .group e t (.ofScalars label values))

/-- Whether an item of a grouped selection is computed for each group. -/
def Reduced.isAggregate : Reduced → Bool
  | .key .. => false
  | .aggregate .. => true

theorem Datum.single_eq_ok {α : Type} {d : Datum α} {x : α} : d.single = .ok x ↔ d = .one x := by
  cases d with
  | one y => simp [single]
  | many ys => simp [single]

@[simp]
theorem Column.length_cells_ofScalars (name : String) (xs : List Scalar) :
    (ofScalars name xs).cells.length = xs.length := by
  simp [ofScalars]

namespace Eager

variable {fs : Functions} {keys : List String} {t : Table}

@[simp]
theorem length_cells_conform (scope : Scope) (e : Expr) (t : Table) (c : Column) :
    (conform fs scope e t c).cells.length = c.cells.length := by
  unfold conform
  split
  · rfl
  · split <;> simp [Column.cast]

/-- The identities of the loaded key values of a row are its key. -/
theorem identities_eq_keyOf {values : List (Array Scalar)}
    (h : (keys.mapM fun name => do return (← t.column name).scalars.toArray) = .ok values)
    (row : Nat) :
    values.map (fun xs => (xs.getD row .null).identity) = t.keyOf keys row := by
  refine map_of_mapM (fun name xs hx => ?_) h
  obtain ⟨c, hc, hxs⟩ := bind_eq_ok.1 hx
  cases hxs
  simp [hc]

theorem keyOf_eq_map {columnOf : String → Column}
    (hcolumn : ∀ k ∈ keys, t.column k = .ok (columnOf k)) (row : Nat) :
    t.keyOf keys row = keys.map fun k => ((columnOf k).scalars.toArray.getD row .null).identity := by
  refine List.map_congr_left fun k hk => ?_
  rw [hcolumn k hk]
  simp

/-- By at least one key of the table the groups are made of the keys of the rows. -/
theorem groups_of_columns {columnOf : String → Column} (hkeys : keys ≠ [])
    (hcolumn : ∀ k ∈ keys, t.column k = .ok (columnOf k)) :
    groups keys t = .ok ((groupRows (fun a b => decide (a = b)) (t.keyOf keys)
      t.height).map Prod.snd) := by
  have hvalues : (keys.mapM fun name => do return (← t.column name).scalars.toArray :
      Except Fault _) = .ok (keys.map fun k => (columnOf k).scalars.toArray) := by
    refine mapM_eq_ok_map fun k hk => ?_
    rw [hcolumn k hk]
    rfl
  have hempty : keys.isEmpty = false := by simpa using hkeys
  rw [groups, hempty, hvalues]
  simp only [Bool.false_eq_true, if_false, ok_bind, identities_eq_keyOf hvalues]
  rfl

/-- By at least one key the groups are those of rows with equal keys. -/
theorem isGrouping_groups {gs : List (List Nat)} (hkeys : keys ≠ []) (h : groups keys t = .ok gs) :
    IsGrouping (t.keyOf keys) t.height gs := by
  unfold groups at h
  rw [if_neg (by simpa using hkeys)] at h
  obtain ⟨values, hvalues, h⟩ := bind_eq_ok.1 h
  cases h
  have hkey : (fun row => values.map fun xs => (xs.getD row Scalar.null).identity) =
      t.keyOf keys := funext (identities_eq_keyOf hvalues)
  simp only [hkey]
  exact isGrouping_groupRows (t.keyOf keys) t.height

/-- Without keys all rows are one group. -/
theorem groups_nil : groups [] t = .ok [List.range t.height] :=
  rfl

/-- A group has a first row, or the item is no key. -/
def HasFirst (gs : List (List Nat)) (i : Reduced) : Prop :=
  i.isAggregate ∨ ∀ g ∈ gs, g ≠ []

theorem filterMap_head? {gs : List (List Nat)} (h : ∀ g ∈ gs, g ≠ []) :
    (gs.filterMap List.head?).map some = gs.map List.head? := by
  induction gs with
  | nil => rfl
  | cons g gs ih =>
    obtain ⟨hg, hgs⟩ := List.forall_mem_cons.1 h
    cases g with
    | nil => exact absurd rfl hg
    | cons row rows => simp [ih hgs]

/-- The cells of a column in the first rows of groups. -/
theorem cells_take_heads {gs : List (List Nat)} (hgs : ∀ g ∈ gs, g ≠ []) (source : Column) :
    (source.take ((gs.filterMap List.head?).map some)).cells =
      gs.map fun g => (g.head?.bind fun row => source.cells[row]?).getD .null := by
  simp [Column.take, filterMap_head? hgs]

/-- A key column holds the cells of the first rows. -/
theorem isReduced_key {gs : List (List Nat)} {column label : String} {source : Column}
    (hsource : t.column column = .ok source) (hgs : ∀ g ∈ gs, g ≠ []) :
    IsReduced fs t gs (.key column label)
      { source.take ((gs.filterMap List.head?).map some) with name := label } := by
  change IsReduced fs t gs (.key column label) ⟨label, source.type, _⟩
  rw [cells_take_heads hgs]
  exact .key hsource

/-- A computed column holds the values of the expression for the groups. -/
theorem isReduced_aggregate {gs : List (List Nat)} {e : Expr} {label : String}
    {values : List Scalar} (h : groupValues fs gs e t = .ok values) :
    IsReduced fs t gs (.aggregate e label)
      (conform fs .group e t (.ofScalars label values)) := by
  obtain ⟨x, hx, h⟩ := bind_eq_ok.1 h
  obtain ⟨d, hd, h⟩ := bind_eq_ok.1 h
  refine .aggregate hx hd ((mapM_eq_ok.1 h).imp fun g v hv => ?_)
  obtain ⟨y, hy, hsingle⟩ := bind_eq_ok.1 hv
  rw [hy, Datum.single_eq_ok.1 hsingle]

/-- The columns of a grouped selection for the groups that were made. -/
theorem columns_of_aggregate {items : List Reduced} {out : Table}
    (h : aggregate fs keys items t = .ok out) :
    ∃ gs, groups keys t = .ok gs ∧
      List.Forall₂ (fun i c => HasFirst gs i → IsReduced fs t gs i c) items out.columns := by
  obtain ⟨-, -, h⟩ := bind_eq_ok.1 h
  obtain ⟨gs, hgs, h⟩ := bind_eq_ok.1 h
  obtain ⟨columns, hcolumns, h⟩ := bind_eq_ok.1 h
  cases h
  refine ⟨gs, hgs, (mapM_eq_ok.1 hcolumns).imp ?_⟩
  rintro (⟨column, label⟩ | ⟨e, label⟩) c hc hi
  · obtain ⟨source, hsource, hc⟩ := bind_eq_ok.1 hc
    cases hc
    exact isReduced_key hsource (hi.resolve_left (by simp [Reduced.isAggregate]))
  · obtain ⟨values, hvalues, hc⟩ := bind_eq_ok.1 hc
    cases hc
    exact isReduced_aggregate hvalues

end Eager

namespace IsReduced

variable {fs : Functions} {t : Table} {gs : List (List Nat)}

/-- A column of a grouped selection has one cell for each group. -/
theorem length_cells {i : Reduced} {c : Column} (h : IsReduced fs t gs i c) :
    c.cells.length = gs.length := by
  cases h with
  | key hsource => simp
  | aggregate hx hd hvalues => simp [hvalues.length_eq]

/-- Rows are counted group by group. -/
theorem cells_countStar {label : String} {c : Column}
    (h : IsReduced fs t gs (.aggregate .countStar label) c) (hgs : ∀ g ∈ gs, g.length < 2 ^ 63) :
    c.cells = gs.map fun g => Cell.int g.length := by
  cases h with
  | @aggregate _ _ _ d values hx hd hvalues =>
    cases hx
    have hcounts : values = gs.map fun g => Scalar.int (.ofNat g.length) :=
      eq_map_of_forall₂ (hvalues.imp fun g v hv => by cases hv; rfl)
    have hfits : ∀ x ∈ values, x.fits .int64 = true := by
      rw [hcounts]
      simp [Scalar.fits]
    rw [Eager.conform_of_fits rfl rfl hfits, hcounts]
    simp only [List.map_map]
    refine List.map_congr_left fun g hg => ?_
    simp [Scalar.cell, Cell.ofScalar, Int64.toInt_ofNat_of_lt (hgs g hg)]

end IsReduced

namespace Eager

variable {fs : Functions} {keys : List String} {t : Table}

/-- The height of a table whose columns have one cell for each group. -/
theorem height_of_columns {items : List Reduced} {gs : List (List Nat)} {out : Table}
    (hitems : items ≠ []) (h : List.Forall₂ (IsReduced fs t gs) items out.columns) :
    out.height = gs.length ∧ ∀ c ∈ out.columns, c.cells.length = gs.length := by
  have hcells : ∀ c ∈ out.columns, c.cells.length = gs.length := by
    intro c hc
    obtain ⟨i, -, hi⟩ := exists_of_mem_right h hc
    exact hi.length_cells
  refine ⟨Table.height_eq_of_cells hcells fun hnil => ?_, hcells⟩
  rw [hnil, List.forall₂_nil_right_iff] at h
  exact absurd h hitems

/-- The sizes of the groups add up to the number of rows, with keys and without. -/
theorem sum_length_groups {gs : List (List Nat)} (h : groups keys t = .ok gs) :
    (gs.map List.length).sum = t.height := by
  by_cases hkeys : keys = []
  · subst hkeys
    cases h
    simp
  · exact (isGrouping_groups hkeys h).sum_length

theorem columns_of_hasFirst {items : List Reduced} {gs : List (List Nat)} {out : Table}
    (h : List.Forall₂ (fun i c => HasFirst gs i → IsReduced fs t gs i c) items out.columns)
    (hfirst : ∀ i ∈ items, HasFirst gs i) : List.Forall₂ (IsReduced fs t gs) items out.columns :=
  ((List.forall₂_and_left _ _).2 ⟨hfirst, h⟩).imp fun _ _ hi => hi.2 hi.1

/-- A grouped selection has one row for each group of rows with equal keys, in the order in which
the keys come first; its columns hold what the items give for those groups. Without keys it has one
row for all rows. In any case the counts of rows add up to the number of rows. -/
theorem aggregate_by_groups {items : List Reduced} {out : Table} (ht : t.height < 2 ^ 32)
    (hitems : items ≠ []) (h : aggregate fs keys items t = .ok out) :
    (keys ≠ [] → ∃ gs, IsGrouping (t.keyOf keys) t.height gs ∧ out.height = gs.length ∧
      (∀ c ∈ out.columns, c.cells.length = gs.length) ∧
      List.Forall₂ (IsReduced fs t gs) items out.columns) ∧
    (keys = [] → (∀ i ∈ items, i.isAggregate) → out.height = 1 ∧
      (∀ c ∈ out.columns, c.cells.length = 1) ∧
      List.Forall₂ (IsReduced fs t [List.range t.height]) items out.columns) ∧
    ∀ label c, (Reduced.aggregate .countStar label, c) ∈ items.zip out.columns →
      ∃ counts : List Nat,
        c.cells = counts.map (fun n : Nat => Cell.int n) ∧ counts.sum = t.height := by
  obtain ⟨gs, hgs, hcolumns⟩ := columns_of_aggregate h
  refine ⟨fun hkeys => ?_, fun hkeys hitems' => ?_, fun label c hc => ?_⟩
  · have hgrouping := isGrouping_groups hkeys hgs
    have hall := columns_of_hasFirst hcolumns fun i _ => .inr hgrouping.ne_nil
    obtain ⟨hheight, hcells⟩ := height_of_columns hitems hall
    exact ⟨gs, hgrouping, hheight, hcells, hall⟩
  · subst hkeys
    cases hgs
    have hall := columns_of_hasFirst hcolumns fun i hi => .inl (hitems' i hi)
    obtain ⟨hheight, hcells⟩ := height_of_columns hitems hall
    exact ⟨hheight, hcells, hall⟩
  · have hc := List.forall₂_zip hcolumns hc (.inl rfl)
    have hsum := sum_length_groups hgs
    refine ⟨gs.map List.length, ?_, hsum⟩
    rw [hc.cells_countStar, List.map_map]
    · rfl
    · intro g hg
      have hle := (List.sublist_flatten_of_mem hg).length_le
      rw [List.length_flatten, hsum] at hle
      omega

/-- A table in which the keys `b`, `a` and `b` stand beside a missing one. -/
def stock : Table :=
  ⟨[⟨"k", .str, [.str "b", .str "a", .str "b", .null]⟩,
    ⟨"v", .int64, [.int 1, .null, .int 3, .int 4]⟩]⟩

/-- The items of a selection of the key, the number of rows and a sum. -/
def tallies : List Reduced :=
  [.key "k" "k", .aggregate .countStar "n", .aggregate (.call "SUM" [.column "v"]) "s"]

theorem stock_by_groups :
    ∃ out, aggregate .builtin ["k"] tallies stock = .ok out ∧
      ∃ gs, IsGrouping (stock.keyOf ["k"]) stock.height gs ∧ out.height = gs.length ∧
        (∀ c ∈ out.columns, c.cells.length = gs.length) ∧
        List.Forall₂ (IsReduced .builtin stock gs) tallies out.columns := by
  obtain ⟨out, hout⟩ := exists_eq_ok (x := aggregate .builtin ["k"] tallies stock)
    (by decide +kernel)
  exact ⟨out, hout, (aggregate_by_groups (by decide) (by decide) hout).1 (by decide)⟩

end Eager

end TableQuery
