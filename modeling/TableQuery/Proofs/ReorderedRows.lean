import TableQuery.Proofs.HelperColumns
import TableQuery.Proofs.ReorderedValues
import TableQuery.Proofs.RollUps

/-!
# Grouping rows in another order

Rows in another order fall into the same groups, only that the groups come in another order, each
lists its rows in another one, and another row may be the first. A key has the same value in all
rows of a group, and counts, sums and extremes do not look at the order of the rows. So grouping a
table and grouping its rows in another order either both fail, or give tables with the same rows in
another order.
-/

namespace TableQuery

/-! ## Groups -/

section

variable {κ : Type} [DecidableEq κ] {key key' : Nat → κ} {rows : List Nat} {n : Nat}
  (hrows : rows.Perm (List.range n)) (hkey : ∀ j < n, key' j = key (rows.getD j 0))

include hrows hkey

/-- Rows in another order have the same keys. -/
theorem keysOf_perm : (keysOf key' n).Perm (keysOf key n) := by
  have hlength : rows.length = n := hrows.length_eq.trans List.length_range
  refine (List.perm_ext_iff_of_nodup (nodup_keysOf _ _) (nodup_keysOf _ _)).2 fun k => ?_
  rw [mem_keysOf, mem_keysOf]
  constructor
  · rintro ⟨j, hj, rfl⟩
    have hj' : j < rows.length := hlength ▸ hj
    have hmem : rows.getD j 0 ∈ rows := by
      rw [List.getD_eq_getElem _ _ hj']
      exact List.getElem_mem hj'
    exact ⟨rows.getD j 0, List.mem_range.1 (hrows.mem_iff.1 hmem), (hkey j hj).symm⟩
  · rintro ⟨i, hi, rfl⟩
    obtain ⟨j, hj, rfl⟩ := List.mem_iff_getElem.1 (hrows.mem_iff.2 (List.mem_range.2 hi))
    refine ⟨j, hlength ▸ hj, ?_⟩
    rw [hkey j (hlength ▸ hj), List.getD_eq_getElem _ _ hj]

/-- The rows of a key are the same, in another order. -/
theorem rowsOf_perm (k : κ) :
    ((rowsOf key' n k).map fun j => rows.getD j 0).Perm (rowsOf key n k) := by
  have hlength : rows.length = n := hrows.length_eq.trans List.length_range
  have hfilter : rowsOf key' n k =
      (List.range n).filter ((fun i => decide (key i = k)) ∘ fun j => rows.getD j 0) := by
    refine List.filter_congr fun j hj => ?_
    rw [hkey j (List.mem_range.1 hj)]
    rfl
  have hmap : (List.range n).map (fun j => rows.getD j 0) = rows := by
    rw [← hlength]
    exact map_getD_range rows 0
  rw [hfilter, ← List.filter_map, hmap]
  exact hrows.filter _

end

/-! ## Rows of a table in another order -/

/-- The same rows in another order. -/
def Table.Reordered (t t' : Table) : Prop :=
  ∃ rows : List Nat, rows.Perm (List.range t.height) ∧ t' = t.take rows

theorem Column.value_take {rows : List Nat} {j : Nat} (hj : j < rows.length) (c : Column) :
    (c.take (rows.map some)).value j = c.value (rows.getD j 0) := by
  have hcell : (c.take (rows.map some)).cells[j]? = some (c.cells[rows.getD j 0]?.getD .null) := by
    simp [take, hj]
  rw [value, value, scalars, scalars, List.getElem?_map, List.getElem?_map, hcell]
  cases c.cells[rows.getD j 0]? <;> rfl

namespace Table

variable {t : Table} {rows : List Nat}

@[simp]
theorem schema_take (rows : List Nat) (t : Table) : (t.take rows).schema = t.schema := by
  simp [schema, take, Column.take]

theorem columns_ne_nil {name : String} (h : name ∈ t.names) : t.columns ≠ [] := by
  obtain ⟨c, hc, -⟩ := List.mem_map.1 h
  exact List.ne_nil_of_mem hc

theorem height_take (h : t.columns ≠ []) : (t.take rows).height = rows.length := by
  refine height_eq_of_cells (fun d hd => ?_) fun hnil => absurd (List.map_eq_nil_iff.1 hnil) h
  obtain ⟨c, -, rfl⟩ := List.mem_map.1 hd
  simp [Column.take]

theorem keyOf_take {keys : List String} {j : Nat} (hj : j < rows.length) :
    (t.take rows).keyOf keys j = t.keyOf keys (rows.getD j 0) := by
  refine List.map_congr_left fun name _ => ?_
  rw [column_take]
  cases t.column name with
  | error f => rfl
  | ok c => exact congrArg Scalar.identity (c.value_take hj)

/-- The keys of the rows, each once. -/
def keysBy (keys : List String) (t : Table) : List (List Scalar.Identity) :=
  keysOf (t.keyOf keys) t.height

/-- The rows that have a key. -/
def rowsBy (keys : List String) (t : Table) : List Scalar.Identity → List Nat :=
  rowsOf (t.keyOf keys) t.height

variable {keys : List String} (hrows : rows.Perm (List.range t.height)) (hcolumns : t.columns ≠ [])

include hcolumns

theorem lt_of_mem_rowsBy_take {k : List Scalar.Identity} {j : Nat}
    (h : j ∈ (t.take rows).rowsBy keys k) : j < rows.length := by
  rw [← height_take hcolumns]
  exact List.mem_range.1 (List.mem_filter.1 h).1

include hrows

theorem height_take_perm : (t.take rows).height = t.height :=
  (height_take hcolumns).trans (hrows.length_eq.trans List.length_range)

theorem keysBy_take : ((t.take rows).keysBy keys).Perm (t.keysBy keys) := by
  rw [keysBy, height_take_perm hrows hcolumns]
  exact keysOf_perm hrows fun j hj =>
    keyOf_take (hj.trans_eq (hrows.length_eq.trans List.length_range).symm)

theorem rowsBy_take (k : List Scalar.Identity) :
    (((t.take rows).rowsBy keys k).map fun j => rows.getD j 0).Perm (t.rowsBy keys k) := by
  rw [rowsBy, height_take_perm hrows hcolumns]
  exact rowsOf_perm hrows (fun j hj =>
    keyOf_take (hj.trans_eq (hrows.length_eq.trans List.length_range).symm)) k

end Table

/-! ## Columns of groups in another order -/

/-- Two columns have the same cells for each of some groups, whose keys may come in another order.
-/
def Column.Agree {κ : Type} (ks ks' : List κ) (c c' : Column) : Prop :=
  ∃ (label : String) (type : ColumnType) (cell : κ → Cell),
    c = ⟨label, type, ks.map cell⟩ ∧ c' = ⟨label, type, ks'.map cell⟩

theorem map_idxOf {κ : Type} [DecidableEq κ] {ks : List κ} (h : ks.Nodup) :
    ks.map (fun k => ks.idxOf k) = List.range ks.length := by
  refine List.ext_getElem (by simp) fun i hi _ => ?_
  simp [h.idxOf_getElem]

/-- Columns that agree on groups make tables with the same rows. -/
theorem Table.reordered_of_agree {κ : Type} [DecidableEq κ] {ks ks' : List κ} (hnodup : ks.Nodup)
    (hks : ks'.Perm ks) {columns columns' : List Column}
    (h : List.Forall₂ (Column.Agree ks ks') columns columns') :
    Table.Reordered ⟨columns⟩ ⟨columns'⟩ := by
  by_cases hnil : columns = []
  · subst hnil
    cases h
    exact ⟨[], .refl _, rfl⟩
  · have hheight : Table.height ⟨columns⟩ = ks.length := by
      refine height_eq_of_cells (fun c hc => ?_) fun hc => absurd hc hnil
      obtain ⟨c', -, label, type, cell, rfl, -⟩ := exists_of_mem_left h hc
      exact List.length_map cell
    refine ⟨ks'.map fun k => ks.idxOf k, ?_, congrArg Table.mk (eq_map_of_forall₂ (h.imp ?_))⟩
    · rw [hheight, ← map_idxOf hnodup]
      exact hks.map _
    · rintro c c' ⟨label, type, cell, rfl, rfl⟩
      refine congrArg (Column.mk label type) ?_
      simp only [List.map_map]
      refine List.map_congr_left fun k hk => ?_
      have hmem : k ∈ ks := hks.mem_iff.1 hk
      simp [List.idxOf_lt_length_of_mem hmem]

/-- Tables whose columns are made one by one, for the same groups, fail alike or have the same rows.
-/
theorem Table.reordered_of_mapM {κ ι : Type} [DecidableEq κ] {ks ks' : List κ} (hnodup : ks.Nodup)
    (hks : ks'.Perm ks) {items : List ι} {f f' : ι → Except Fault Column}
    (h : ∀ i ∈ items, GoAlike (Column.Agree ks ks') (f i) (f' i)) :
    GoAlike Table.Reordered (do return ⟨← items.mapM f⟩ : Except Fault Table)
      (do return ⟨← items.mapM f'⟩) :=
  (GoAlike.mapM h).bind fun _ _ hagree => .ok (reordered_of_agree hnodup hks hagree)

/-! ## Selections of keys and tallies -/

/-- The number of rows, or an aggregate of a column that does not depend on the order of its values.
The column may also denote nothing. -/
inductive Expr.IsTally (t : Table) : Expr → Prop where
  | countStar : IsTally t .countStar
  | column {name column : String} {a : Aggregate} (ha : Aggregate.ofName? name = some a)
      (h : ∀ source c, Name.resolve? column t.names = some source → t.column source = .ok c →
        a.Tallies c) :
      IsTally t (.call name [.column column])

/-- An item of a grouped selection that is one of the keys, or a tally. -/
def Reduced.IsTally (keys : List String) (t : Table) : Reduced → Prop
  | .key column _ => column ∈ keys
  | .aggregate e _ => e.IsTally t

theorem Aggregate.Tallies.take {c : Column} {a : Aggregate} (h : a.Tallies c)
    (rows : List (Option Nat)) : a.Tallies (c.take rows) := by
  cases h with
  | count => exact .count
  | sum hc htype => exact .sum (hc.take rows) htype
  | min hc => exact .min (hc.take rows)
  | max hc => exact .max (hc.take rows)

theorem Aggregate.Tallies.reduced_take {c : Column} {a : Aggregate} (h : a.Tallies c)
    {rows g g' : List Nat} (hlt : ∀ j ∈ g', j < rows.length)
    (hg : (g'.map fun j => rows.getD j 0).Perm g) :
    (c.take (rows.map some)).reduced a g' = c.reduced a g := by
  have hvalues : g'.map (c.take (rows.map some)).value =
      (g'.map fun j => rows.getD j 0).map c.value := by
    rw [List.map_map]
    exact List.map_congr_left fun j hj => c.value_take (hlt j hj)
  rw [Column.reduced, hvalues, h.reduce (hg.map c.value)]
  rfl

namespace Eager

/-- A tally fails before there are groups, in whatever order the rows are, or it has a value for
every group, which is the same for the same rows in another order. -/
theorem groupValues_take {e : Expr} {t : Table} (he : e.IsTally t) (fs : Functions)
    (rows : List Nat) :
    (∃ f, (∀ gs, groupValues fs gs e t = .error f) ∧
      ∀ gs, groupValues fs gs e (t.take rows) = .error f) ∨
    ∃ value value' : List Nat → Scalar, (∀ gs, groupValues fs gs e t = .ok (gs.map value)) ∧
      (∀ gs, groupValues fs gs e (t.take rows) = .ok (gs.map value')) ∧
      ∀ g g', (∀ j ∈ g', j < rows.length) → (g'.map fun j => rows.getD j 0).Perm g →
        value' g' = value g := by
  cases he with
  | countStar =>
    refine .inr ⟨_, _, fun gs => groupValues_countStar fs gs t,
      fun gs => groupValues_countStar fs gs _, fun g g' _ hg => ?_⟩
    rw [← hg.length_eq, List.length_map]
  | @column name column a hname h =>
    cases hresolve : Name.resolve? column t.names with
    | none =>
      refine .inl ⟨.noColumn column t.names, groupValues_of_noColumn hname hresolve, fun gs => ?_⟩
      rw [← Table.names_take rows t] at hresolve ⊢
      exact groupValues_of_noColumn hname hresolve gs
    | some source =>
      obtain ⟨c, hc⟩ := Table.exists_column_of_mem (Name.mem_of_resolve? hresolve)
      have htallies := h source c hresolve hc
      have hc' : (t.take rows).column source = .ok (c.take (rows.map some)) := by
        rw [Table.column_take, hc]
        rfl
      refine .inr ⟨c.reduced a, (c.take (rows.map some)).reduced a, fun gs => ?_, fun gs => ?_,
        fun g g' => htallies.reduced_take⟩
      · rw [groupValues_column hname hresolve hc]
        exact mapM_eq_ok_map fun g _ => htallies.reduce (.refl _)
      · rw [← Table.names_take rows t] at hresolve
        rw [groupValues_column hname hresolve hc']
        exact mapM_eq_ok_map fun g _ => (htallies.take _).reduce (.refl _)

/-- In whatever order the rows are, a key that is no column is the same fault. -/
theorem groups_take {keys : List String} (hne : keys ≠ []) (t : Table) (rows : List Nat) :
    (∃ f, groups keys t = .error f ∧ groups keys (t.take rows) = .error f) ∨
      ∀ k ∈ keys, k ∈ t.names := by
  have hempty : keys.isEmpty = false := by simpa using hne
  have hvalues : GoAlike (List.Forall₂ fun _ _ => True)
      (keys.mapM fun k => do return (← t.column k).scalars.toArray)
      (keys.mapM fun k => do return (← (t.take rows).column k).scalars.toArray) := by
    refine GoAlike.mapM fun k _ => ?_
    rw [Table.column_take]
    cases t.column k with
    | error f => exact .error f
    | ok c => exact .ok trivial
  rcases hvalues with ⟨f, hf, hf'⟩ | ⟨values, -, hvalues, -⟩
  · refine .inl ⟨f, ?_, ?_⟩
    · rw [groups, hempty, hf]
      rfl
    · rw [groups, hempty, hf']
      rfl
  · refine .inr fun k hk => ?_
    obtain ⟨xs, -, hxs⟩ := exists_of_mem_left (mapM_eq_ok.1 hvalues) hk
    obtain ⟨c, hc, -⟩ := bind_eq_ok.1 hxs
    exact Table.mem_names_of_column hc

theorem conform_take (fs : Functions) (scope : Scope) (e : Expr) (t : Table) (rows : List Nat) :
    conform fs scope e (t.take rows) = conform fs scope e t := by
  funext c
  rw [conform, conform, Table.schema_take]

section

variable {fs : Functions} {keys : List String} {t : Table} {rows : List Nat}
  (hrows : rows.Perm (List.range t.height)) (hcolumns : t.columns ≠ [])

include hrows hcolumns

/-- The cells of a key are the same for the same groups. -/
theorem agree_key {column : String} {source : Column} (hcolumn : column ∈ keys)
    (hsource : t.column column = .ok source) (hbasic : source.IsBasic) (label : String) :
    Column.Agree (t.keysBy keys) ((t.take rows).keysBy keys)
      { source.take ((((t.keysBy keys).map (t.rowsBy keys)).filterMap List.head?).map some) with
        name := label }
      { (source.take (rows.map some)).take (((((t.take rows).keysBy keys).map
          ((t.take rows).rowsBy keys)).filterMap List.head?).map some) with name := label } := by
  have hne (u : Table) : ∀ g ∈ (u.keysBy keys).map (u.rowsBy keys), g ≠ [] := by
    refine List.forall_mem_map.2 fun k hk hnil => ?_
    obtain ⟨first, hfirst, -⟩ := head?_rowsOf hk
    rw [show rowsOf (u.keyOf keys) u.height k = [] from hnil] at hfirst
    cases hfirst
  refine ⟨label, source.type, fun k =>
    (((t.rowsBy keys k).head?.bind fun row => source.cells[row]?).getD .null), ?_, ?_⟩
  · refine congrArg (Column.mk label source.type) ((cells_take_heads (hne t) source).trans ?_)
    rw [List.map_map]
    rfl
  · refine congrArg (Column.mk label source.type) ((cells_take_heads (hne _) _).trans ?_)
    rw [List.map_map]
    refine List.map_congr_left fun k hk' => ?_
    have hk : k ∈ t.keysBy keys := (Table.keysBy_take hrows hcolumns).mem_iff.1 hk'
    obtain ⟨first, hfirst, hfirstKey⟩ := head?_rowsOf hk
    obtain ⟨first', hfirst', hfirstKey'⟩ := head?_rowsOf hk'
    have hlt : first' < rows.length :=
      Table.lt_of_mem_rowsBy_take hcolumns (List.mem_of_head? hfirst')
    rw [Table.keyOf_take hlt, ← hfirstKey] at hfirstKey'
    have hvalue := Table.value_eq_of_keyOf hfirstKey' hcolumn hsource hbasic
    simp only [Function.comp_apply, Table.rowsBy, hfirst, hfirst', Option.bind_some]
    rw [(hbasic.take _).getElem?_cells, hbasic.getElem?_cells, source.value_take hlt, hvalue]

/-- The cells of a tally are the same for the same groups. -/
theorem agree_tally {e : Expr} {value value' : List Nat → Scalar}
    (h : ∀ g g', (∀ j ∈ g', j < rows.length) → (g'.map fun j => rows.getD j 0).Perm g →
      value' g' = value g) (label : String) :
    Column.Agree (t.keysBy keys) ((t.take rows).keysBy keys)
      (conform fs .group e t
        (.ofScalars label (((t.keysBy keys).map (t.rowsBy keys)).map value)))
      (conform fs .group e t (.ofScalars label
        ((((t.take rows).keysBy keys).map ((t.take rows).rowsBy keys)).map value'))) := by
  have hvalues : (((t.take rows).keysBy keys).map ((t.take rows).rowsBy keys)).map value' =
      (((t.take rows).keysBy keys).map (t.rowsBy keys)).map value := by
    rw [List.map_map, List.map_map]
    exact List.map_congr_left fun k _ => h _ _
      (fun j hj => Table.lt_of_mem_rowsBy_take hcolumns hj)
      (Table.rowsBy_take hrows hcolumns k)
  obtain ⟨type, cell, hcells⟩ := exists_conform fs .group e t label
    (((t.keysBy keys).map (t.rowsBy keys)).map value)
  refine ⟨label, type, cell ∘ value ∘ t.rowsBy keys, ?_, ?_⟩
  · rw [hcells _ (.refl _)]
    simp
  · rw [hvalues, hcells _ (((Table.keysBy_take hrows hcolumns).map _).map _)]
    simp

end

/-- Grouping the rows of a table by at least one key, with tallies, does not depend on the order of
the rows: in every order it fails in the same way, or gives the same rows in some order. -/
theorem aggregate_reordered (fs : Functions) {keys : List String} {items : List Reduced}
    {t t' : Table} (ht : t.Reordered t') (hne : keys ≠ [])
    (hkeys : ∀ k ∈ keys, ∀ c, t.column k = .ok c → c.IsBasic)
    (hitems : ∀ i ∈ items, i.IsTally keys t) :
    (∃ f, aggregate fs keys items t = .error f ∧ aggregate fs keys items t' = .error f) ∨
    ∃ out out', aggregate fs keys items t = .ok out ∧ aggregate fs keys items t' = .ok out' ∧
      out.Reordered out' := by
  obtain ⟨rows, hrows, rfl⟩ := ht
  rw [aggregate, aggregate]
  cases distinctOutputs (items.map Reduced.label) with
  | error f => exact .inl ⟨f, rfl, rfl⟩
  | ok _ =>
    rw [ok_bind, ok_bind]
    rcases groups_take hne t rows with ⟨f, hf, hf'⟩ | hnames
    · rw [hf, hf']
      exact .inl ⟨f, rfl, rfl⟩
    · obtain ⟨k, hk⟩ := List.exists_mem_of_ne_nil keys hne
      have hcolumns : t.columns ≠ [] := Table.columns_ne_nil (hnames k hk)
      have hgroups : groups keys t = .ok ((t.keysBy keys).map (t.rowsBy keys)) :=
        groups_of_names hne hnames
      have hgroups' : groups keys (t.take rows) =
          .ok (((t.take rows).keysBy keys).map ((t.take rows).rowsBy keys)) :=
        groups_of_names hne (by rwa [Table.names_take])
      rw [hgroups, hgroups', ok_bind, ok_bind]
      have hperm : ((t.take rows).keysBy keys).Perm (t.keysBy keys) :=
        Table.keysBy_take hrows hcolumns
      refine Table.reordered_of_mapM (nodup_keysOf _ _) hperm fun i hi => ?_
      cases i with
      | key column label =>
        have hcolumn : column ∈ keys := hitems _ hi
        obtain ⟨source, hsource⟩ := Table.exists_column_of_mem (hnames column hcolumn)
        dsimp only
        rw [Table.column_take, hsource]
        exact .inr ⟨_, _, rfl, rfl,
          agree_key hrows hcolumns hcolumn hsource (hkeys column hcolumn source hsource) label⟩
      | aggregate e label =>
        have htally : e.IsTally t := hitems _ hi
        dsimp only
        rcases groupValues_take htally fs rows with
          ⟨f, hf, hf'⟩ | ⟨value, value', hvalue, hvalue', hsame⟩
        · rw [hf, hf']
          exact .inl ⟨f, rfl, rfl⟩
        · rw [hvalue, hvalue', conform_take]
          exact .inr ⟨_, _, rfl, rfl, agree_tally hrows hcolumns hsame label⟩

/-- Parcels to cities, one of them to no city. -/
def parcels : Table :=
  ⟨[⟨"city", .str, [Scalar.str "ulm", .null, .str "bonn", .str "ulm"].map Scalar.cell⟩,
    ⟨"grams", .int64, [Scalar.int 5, .int 2, .null, .int 3].map Scalar.cell⟩]⟩

def parcelItems : List Reduced :=
  [.key "city" "city", .aggregate .countStar "n", .aggregate (.call "SUM" [.column "grams"]) "sum",
    .aggregate (.call "min" [.column "grams"]) "least"]

/-- The parcels by cities. -/
def parcelsByCity : Table :=
  ⟨[⟨"city", .str, [.str "ulm", .null, .str "bonn"]⟩, ⟨"n", .int64, [.int 2, .int 1, .int 1]⟩,
    ⟨"sum", .int64, [.int 8, .int 2, .int 0]⟩, ⟨"least", .int64, [.int 3, .int 2, .null]⟩]⟩

theorem parcels_reordered : ∃ out,
    aggregate .builtin ["city"] parcelItems (parcels.take [2, 3, 1, 0]) = .ok out ∧
      parcelsByCity.Reordered out := by
  have hkeys : ∀ k ∈ ["city"], ∀ c, parcels.column k = .ok c → c.IsBasic := by
    intro k hk c hc
    obtain rfl := List.mem_singleton.1 hk
    cases hc
    exact Column.isBasic_of_scalars rfl (by decide)
  have hgrams : ∀ source c, Name.resolve? "grams" parcels.names = some source →
      parcels.column source = .ok c → c.IsBasic ∧ c.type = .int64 := by
    intro source c hsource hc
    cases hsource
    cases hc
    exact ⟨Column.isBasic_of_scalars rfl (by decide), rfl⟩
  have hitems : ∀ i ∈ parcelItems, i.IsTally ["city"] parcels := by
    simp only [parcelItems, List.forall_mem_cons, Reduced.IsTally]
    refine ⟨List.mem_singleton_self _, .countStar, .column rfl fun source c hsource hc => ?_,
      .column rfl fun source c hsource hc => ?_, List.forall_mem_nil _⟩
    · exact .sum (hgrams source c hsource hc).1 (hgrams source c hsource hc).2
    · exact .min (hgrams source c hsource hc).1
  have hperm : parcels.Reordered (parcels.take [2, 3, 1, 0]) := ⟨_, by decide, rfl⟩
  have hparcels : aggregate .builtin ["city"] parcelItems parcels = .ok parcelsByCity := rfl
  rcases aggregate_reordered .builtin hperm (List.cons_ne_nil _ _) hkeys hitems with
    ⟨f, hf, -⟩ | ⟨out, out', hout, hout', hreordered⟩
  · rw [hparcels] at hf
    cases hf
  · rw [hparcels] at hout
    cases hout
    exact ⟨out', hout', hreordered⟩

end Eager

end TableQuery
