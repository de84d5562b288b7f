import TableQuery.Proofs.Engines.Groups
import TableQuery.Proofs.GroupsOfGroups
import TableQuery.Proofs.RolledUpValues

/-!
# Roll-ups

A summary by some keys counts the rows and the values of a column in each group, sums them, and
takes the least and the greatest. Summarizing the summary by some of its keys, with sums of counts
and of sums and extremes of extremes, gives what summarizing the rows by these keys gives at once.
-/

namespace TableQuery

/-! ## Columns of a grouped selection -/

/-- A column of a grouped selection: its type, and its value for a group of rows. -/
structure Figure where
  label : String
  type : ColumnType
  value : List Nat → Scalar

namespace Figure

/-- The column for some groups of rows. -/
def column (f : Figure) (gs : List (List Nat)) : Column :=
  ⟨f.label, f.type, gs.map fun g => (f.value g).cell⟩

/-- The value of a key column in the first row. -/
def first (label : String) (c : Column) : Figure :=
  ⟨label, c.type, fun g => c.value (g.headD 0)⟩

/-- The number of rows. -/
def count (label : String) : Figure :=
  ⟨label, .int64, fun g => .int (.ofNat g.length)⟩

/-- The value of an aggregate of a column. -/
def reduced (label : String) (a : Aggregate) (c : Column) : Figure :=
  ⟨label, a.resultType c.type, c.reduced a⟩

/-- What an item of a grouped selection gives: a key the value of the first row, and a reduction its
value. -/
inductive Of (fs : Functions) (t : Table) : Reduced → Figure → Prop where
  | key {column : String} {c : Column} (hc : t.column column = .ok c) (hbasic : c.IsBasic)
      (label : String) : Of fs t (.key column label) (first label c)
  | aggregate {e : Expr} {f : Formula} {type : ColumnType} {value : List Nat → Scalar}
      (h : e.Reduces fs t f type value) (label : String) :
      Of fs t (.aggregate e label) ⟨label, type, value⟩

variable {fs : Functions} {t : Table} {i : Reduced} {f : Figure}

theorem Of.basic (h : Of fs t i f) : f.type.isBasic = true := by
  cases h with
  | key _ hbasic => exact hbasic.type
  | aggregate h => exact h.basic

theorem Of.fits (h : Of fs t i f) {g : List Nat} (hg : g.length < 2 ^ 63) :
    (f.value g).fits f.type = true := by
  cases h with
  | key _ hbasic => exact hbasic.fits_value _
  | aggregate h => exact h.fits g hg

/-- The cells of a figure are values of its type. -/
theorem Of.isBasic_column (h : Of fs t i f) {gs : List (List Nat)}
    (hgs : ∀ g ∈ gs, g.length < 2 ^ 63) : (f.column gs).IsBasic := by
  refine ⟨h.basic, fun cell hcell => ?_⟩
  obtain ⟨g, hg, rfl⟩ := List.mem_map.1 hcell
  exact ⟨_, h.fits (hgs g hg), rfl⟩

/-- In a row of its column a figure has its value for the group of that row. -/
theorem value_column {gs : List (List Nat)} (h : ∀ g ∈ gs, (f.value g).fits f.type = true) {j : Nat}
    (hj : j < gs.length) : (f.column gs).value j = f.value (gs.getD j []) := by
  have hfits := h gs[j] (List.getElem_mem hj)
  simp [Column.value, column, Column.scalars, hj, Scalar.scalar_cell hfits]

end Figure

namespace Eager

variable {fs : Functions} {t : Table} {keys : List String} {gs : List (List Nat)}
  {items : List Reduced} {columns : List Column}

/-- A grouped selection makes the columns of its items for the groups. -/
theorem aggregate_of_figures (hgroups : groups keys t = .ok gs)
    (hgs : ∀ g ∈ gs, g.length < 2 ^ 63) (hfirst : ∀ i ∈ items, HasFirst gs i)
    (hlabels : (items.map Reduced.label).Nodup)
    (h : List.Forall₂ (fun i c => ∃ f, Figure.Of fs t i f ∧ c = f.column gs) items columns) :
    aggregate fs keys items t = .ok ⟨columns⟩ := by
  rw [aggregate, distinctOutputs_eq_ok.2 hlabels, ok_bind, hgroups, ok_bind]
  refine bind_eq_ok.2 ⟨columns, mapM_eq_ok.2 ?_, rfl⟩
  refine ((List.forall₂_and_left _ _).2 ⟨hfirst, h⟩).imp ?_
  rintro i c ⟨hi, f, hf, rfl⟩
  cases hf with
  | @key column c hc hbasic label =>
    have hne : ∀ g ∈ gs, g ≠ [] := hi.resolve_left (by simp [Reduced.isAggregate])
    simp only [hc, ok_bind, filterMap_head? hne]
    refine congrArg (fun cells => Except.ok (Column.mk label c.type cells)) ?_
    rw [Column.take, List.map_map]
    refine List.map_congr_left fun g hg => ?_
    cases g with
    | nil => exact absurd rfl (hne [] hg)
    | cons row rows =>
      have hcell : ((Figure.first label c).value (row :: rows)).cell = c.cells[row]?.getD .null :=
        (hbasic.getElem?_cells row).symm
      rw [hcell]
      simp
  | aggregate h label =>
    simp only [h.values gs hgs, ok_bind, (h.column hgs).1]
    rfl

end Eager

/-! ## Groups of the rows of a summary -/

namespace Scalar

/-- Values of one type with one identity are equal. -/
theorem eq_of_identity {type : ColumnType} {x y : Scalar} (hx : x.fits type = true)
    (hy : y.fits type = true) (h : x.identity = y.identity) : x = y := by
  cases x <;> cases y <;> simp_all [fits, identity]

end Scalar

namespace Table

variable {t : Table} {keys : List String} {a b : Nat}

theorem keyOf_eq_iff : t.keyOf keys a = t.keyOf keys b ↔
    ∀ k ∈ keys, t.keyOf [k] a = t.keyOf [k] b := by
  simp [keyOf]

/-- Rows with the same keys have the same values of each key. -/
theorem value_eq_of_keyOf (h : t.keyOf keys a = t.keyOf keys b) {k : String} (hk : k ∈ keys)
    {c : Column} (hc : t.column k = .ok c) (hbasic : c.IsBasic) : c.value a = c.value b := by
  have hidentity := keyOf_eq_iff.1 h k hk
  simp only [keyOf, List.map_cons, List.map_nil, hc, List.cons.injEq, and_true] at hidentity
  exact Scalar.eq_of_identity (hbasic.fits_value a) (hbasic.fits_value b) hidentity

end Table

namespace Eager

variable {t mid : Table} {fine coarse : List String} {gs : List (List Nat)}

/-- The groups by at least one key, in closed form. -/
theorem groups_of_names {keys : List String} (hne : keys ≠ []) (hmem : ∀ k ∈ keys, k ∈ t.names) :
    groups keys t =
      .ok ((keysOf (t.keyOf keys) t.height).map (rowsOf (t.keyOf keys) t.height)) := by
  obtain ⟨columnOf, hcolumn⟩ := Table.exists_columns hmem
  rw [groups_of_columns hne hcolumn, groupRows_eq, List.map_map]
  rfl

/-- A group of rows of a summary, which has one row for each of some groups of rows, goes with a
group of rows: these are the rows of the groups, and the first ones have the same keys. -/
structure GoesWith (t : Table) (keys : List String) (gs : List (List Nat)) (group rows : List Nat) :
    Prop where
  lt : ∀ j ∈ group, j < gs.length
  perm : (group.map fun j => gs.getD j []).flatten.Perm rows
  first : t.keyOf keys ((gs.getD (group.headD 0) []).headD 0) = t.keyOf keys (rows.headD 0)

/-- The rows of a summary are grouped as the rows themselves. -/
theorem exists_groups (hne : fine ≠ []) (hgs : groups fine t = .ok gs) (hsub : coarse ⊆ fine)
    (hmem : ∀ k ∈ fine, k ∈ t.names) (hmid : ∀ k ∈ coarse, k ∈ mid.names)
    (hheight : mid.height = gs.length)
    (hkey : ∀ j < gs.length, ∀ row ∈ gs.getD j [], mid.keyOf coarse j = t.keyOf coarse row) :
    ∃ groups' rows, groups coarse mid = .ok groups' ∧ groups coarse t = .ok rows ∧
      List.Forall₂ (GoesWith t coarse gs) groups' rows := by
  have hgrouping := isGrouping_groups hne hgs
  by_cases hcoarse : coarse = []
  · subst hcoarse
    refine ⟨_, _, groups_nil, groups_nil, .cons ⟨?_, ?_, rfl⟩ .nil⟩
    · simp [hheight]
    · rw [hheight, map_getD_range]
      exact hgrouping.partition
  · refine ⟨_, _, groups_of_names hcoarse hmid,
      groups_of_names hcoarse fun k hk => hmem k (hsub hk), ?_⟩
    have hfactors : (t.keyOf coarse).FactorsThrough (t.keyOf fine) := fun a b h =>
      Table.keyOf_eq_iff.2 fun k hk => Table.keyOf_eq_iff.1 h k (hsub hk)
    rw [hheight, hgrouping.keysOf_coarse hfactors hkey, List.forall₂_map_left_iff,
      List.forall₂_map_right_iff, List.forall₂_same]
    intro k hk
    have hk' : k ∈ keysOf (mid.keyOf coarse) gs.length := by
      rwa [hgrouping.keysOf_coarse hfactors hkey]
    obtain ⟨j, hj, hjk⟩ := head?_rowsOf hk'
    obtain ⟨row, hrow, hrowk⟩ := head?_rowsOf hk
    have hlt : ∀ i ∈ rowsOf (mid.keyOf coarse) gs.length k, i < gs.length := fun i hi =>
      List.mem_range.1 (List.mem_filter.1 hi).1
    refine ⟨hlt, hgrouping.perm_rowsOf_coarse hkey k, ?_⟩
    have hjlt := hlt j (List.mem_of_head? hj)
    obtain ⟨first, hfirst, -⟩ := hgrouping.rows _ (List.getElem_mem hjlt)
    have hfirst' : (gs.getD j []).head? = some first := by simpa [hjlt] using hfirst
    rw [List.headD_eq_head?_getD, List.headD_eq_head?_getD, List.headD_eq_head?_getD, hj, hrow]
    rw [Option.getD_some, Option.getD_some, hfirst', Option.getD_some, hrowk, ← hjk]
    exact (hkey j hjlt first (List.mem_of_head? hfirst')).symm

end Eager

namespace Figure

variable {fs : Functions} {t mid : Table} {i : Reduced} {f : Figure} {keys : List String}
  {gs groups rows : List (List Nat)}

/-- Figures with the same values for groups that go together have the same columns. -/
theorem column_congr {f' : Figure} (hlabel : f.label = f'.label) (htype : f.type = f'.type)
    (hpairs : List.Forall₂ (Eager.GoesWith t keys gs) groups rows)
    (hvalue : ∀ group ∈ groups, ∀ row, Eager.GoesWith t keys gs group row →
      f'.value group = f.value row) : f.column rows = f'.column groups := by
  have hcells : groups.map (fun g => (f'.value g).cell) = rows.map fun g => (f.value g).cell := by
    have hmem : List.Forall₂ (fun group row => group ∈ groups ∧ Eager.GoesWith t keys gs group row)
        groups rows := (List.forall₂_and_left _ _).2 ⟨fun _ h => h, hpairs⟩
    refine (map_eq_map_of_forall₂ (hmem.imp fun group row h => ?_)).symm
    rw [hvalue group h.1 row h.2]
  rw [column, column, hcells, hlabel, htype]

/-- An aggregate of a figure's column rolls up the figure. -/
theorem exists_rolledUp {a : Aggregate} {name : String} (hname : Aggregate.ofName? name = some a)
    (htakes : a.Takes f.type) (hf : Of fs t i f) (hrolls : a.RollsUp f.value)
    (hcolumn : mid.column f.label = .ok (f.column gs)) (hheight : mid.height = gs.length)
    (hgs : ∀ g ∈ gs, g.length < 2 ^ 63)
    (hpairs : List.Forall₂ (Eager.GoesWith t keys gs) groups rows) (label : String) :
    ∃ f', Of fs mid (.aggregate (.call name [.column f.label]) label) f' ∧
      (⟨label, a.resultType f.type, f.value⟩ : Figure).column rows = f'.column groups := by
  have hresolve : Name.resolve? f.label mid.names = some f.label :=
    Name.resolve?_of_mem (Table.mem_names_of_column hcolumn)
  refine ⟨_, .aggregate (Expr.reduces_column hname hresolve hcolumn (hf.isBasic_column hgs)
    (by simp [column, hheight]) htakes) label, column_congr rfl rfl hpairs fun group _ row h => ?_⟩
  have hvalues : group.map (f.column gs).value = (group.map fun j => gs.getD j []).map f.value := by
    rw [List.map_map]
    exact List.map_congr_left fun j hj => value_column (fun g hg => hf.fits (hgs g hg)) (h.lt j hj)
  simp only [hvalues, hrolls _ _ h.perm]
  rfl

/-- A key of a summary is a key of its rows. -/
theorem exists_key {k : String} {c : Column} (hk : k ∈ keys) (hc : t.column k = .ok c)
    (hbasic : c.IsBasic)
    (hcolumn : mid.column k = .ok ((first k c).column gs))
    (hgs : ∀ g ∈ gs, g.length < 2 ^ 63) (hne : ∀ g ∈ groups, g ≠ [])
    (hpairs : List.Forall₂ (Eager.GoesWith t keys gs) groups rows) :
    ∃ f', Of fs mid (.key k k) f' ∧ (first k c).column rows = f'.column groups := by
  have hf : Of fs t (.key k k) (first k c) := .key hc hbasic k
  refine ⟨_, .key hcolumn (hf.isBasic_column hgs) k,
    column_congr rfl rfl hpairs fun group hmem row h => ?_⟩
  have hfirst : group.headD 0 < gs.length := by
    cases group with
    | nil => exact absurd rfl (hne [] hmem)
    | cons j js => exact h.lt j List.mem_cons_self
  change ((first k c).column gs).value (group.headD 0) = (first k c).value row
  rw [value_column (fun g hg => hf.fits (hgs g hg)) hfirst]
  exact Table.value_eq_of_keyOf h.first hk hc hbasic

end Figure

namespace Eager

variable {t : Table} {keys : List String} {gs : List (List Nat)} {items : List Reduced}

theorem length_le_of_groups (h : groups keys t = .ok gs) : ∀ g ∈ gs, g.length ≤ t.height := by
  by_cases hkeys : keys = []
  · subst hkeys
    cases h
    simp
  · exact (isGrouping_groups hkeys h).length_le

theorem hasFirst_of_groups (h : groups keys t = .ok gs)
    (hitems : keys = [] → ∀ i ∈ items, i.isAggregate) : ∀ i ∈ items, HasFirst gs i := by
  by_cases hkeys : keys = []
  · exact fun i hi => .inl (hitems hkeys i hi)
  · exact fun i _ => .inr (isGrouping_groups hkeys h).ne_nil

end Eager

/-! ## Summaries -/

/-- The names of the columns of a summary: the number of rows, the number of values, their sum, the
least and the greatest one. -/
structure Summary where
  rows : String
  values : String
  sum : String
  least : String
  greatest : String

namespace Summary

def labels (s : Summary) : List String :=
  [s.rows, s.values, s.sum, s.least, s.greatest]

/-- The items that summarize a column by keys, which keep their names. -/
def items (s : Summary) (keys : List String) (v : String) : List Reduced :=
  keys.map (fun k => .key k k) ++
    [.aggregate .countStar s.rows, .aggregate (.call "COUNT" [.column v]) s.values,
      .aggregate (.call "SUM" [.column v]) s.sum, .aggregate (.call "MIN" [.column v]) s.least,
      .aggregate (.call "MAX" [.column v]) s.greatest]

/-- The items that summarize a summary by keys: the sums of its counts and sums, and the extremes of
its extremes. -/
def rollUp (s inner : Summary) (keys : List String) : List Reduced :=
  keys.map (fun k => .key k k) ++
    [.aggregate (.call "SUM" [.column inner.rows]) s.rows,
      .aggregate (.call "SUM" [.column inner.values]) s.values,
      .aggregate (.call "SUM" [.column inner.sum]) s.sum,
      .aggregate (.call "MIN" [.column inner.least]) s.least,
      .aggregate (.call "MAX" [.column inner.greatest]) s.greatest]

/-- What the items of a summary give. -/
def figures (s : Summary) (keys : List String) (columnOf : String → Column) (c : Column) :
    List Figure :=
  keys.map (fun k => .first k (columnOf k)) ++
    [.count s.rows, .reduced s.values .count c, .reduced s.sum .sum c, .reduced s.least .min c,
      .reduced s.greatest .max c]

/-- The table that a summary makes for groups of rows. -/
def table (s : Summary) (keys : List String) (columnOf : String → Column) (c : Column)
    (gs : List (List Nat)) : Table :=
  ⟨(s.figures keys columnOf c).map fun f => f.column gs⟩

/-- A table can be summarized by some columns as keys, of another one, which holds whole numbers. -/
structure Applies (t : Table) (keys : List String) (columnOf : String → Column) (v : String)
    (c : Column) : Prop where
  key : ∀ k ∈ keys, t.column k = .ok (columnOf k)
  keyBasic : ∀ k ∈ keys, (columnOf k).IsBasic
  column : t.column v = .ok c
  basic : c.IsBasic
  type : c.type = .int64
  length : c.cells.length = t.height

variable {fs : Functions} {t : Table} {fine coarse keys : List String} {columnOf : String → Column}
  {v : String} {c : Column} {gs groups rows : List (List Nat)}

theorem Applies.mono (h : Applies t fine columnOf v c) (hsub : coarse ⊆ fine) :
    Applies t coarse columnOf v c :=
  { h with
    key := fun k hk => h.key k (hsub hk)
    keyBasic := fun k hk => h.keyBasic k (hsub hk) }

theorem map_label_items (s : Summary) : (s.items keys v).map Reduced.label = keys ++ s.labels := by
  simp [items, labels, Reduced.label, Function.comp_def]

theorem map_label_rollUp (s inner : Summary) :
    (s.rollUp inner keys).map Reduced.label = keys ++ s.labels := by
  simp [rollUp, labels, Reduced.label, Function.comp_def]

theorem names_table (s : Summary) : (s.table keys columnOf c gs).names = keys ++ s.labels := by
  simp [table, figures, labels, Table.names, Figure.column, Figure.first, Figure.count,
    Figure.reduced, Function.comp_def]

theorem height_table (s : Summary) : (s.table keys columnOf c gs).height = gs.length := by
  refine Table.height_eq_of_cells ?_ fun hnil => ?_
  · exact List.forall_mem_map.2 fun f _ => by simp [Figure.column]
  · simp [table, figures] at hnil

theorem column_table {s : Summary} (hnodup : (keys ++ s.labels).Nodup) {f : Figure}
    (hf : f ∈ s.figures keys columnOf c) :
    (s.table keys columnOf c gs).column f.label = .ok (f.column gs) := by
  refine Table.column_of_mem (c := f.column gs) ?_ (List.mem_map_of_mem hf)
  rwa [names_table]

theorem first_mem_figures {s : Summary} {k : String} (hk : k ∈ keys) :
    .first k (columnOf k) ∈ s.figures keys columnOf c :=
  List.mem_append_left _ (List.mem_map_of_mem hk)

/-- The items of a summary give its figures. -/
theorem Applies.of_items (h : Applies t keys columnOf v c) (s : Summary) :
    List.Forall₂ (Figure.Of fs t) (s.items keys v) (s.figures keys columnOf c) := by
  have hresolve : Name.resolve? v t.names = some v :=
    Name.resolve?_of_mem (Table.mem_names_of_column h.column)
  have hof {a : Aggregate} {name : String} (hname : Aggregate.ofName? name = some a)
      (ha : a ≠ .avg) (label : String) :
      Figure.Of fs t (.aggregate (.call name [.column v]) label) (.reduced label a c) :=
    .aggregate (Expr.reduces_column hname hresolve h.column h.basic h.length
      ⟨h.basic.type, ha, fun _ => h.type⟩) label
  refine List.rel_append ?_ ?_
  · rw [List.forall₂_map_left_iff, List.forall₂_map_right_iff, List.forall₂_same]
    exact fun k hk => .key (h.key k hk) (h.keyBasic k hk) k
  · refine .cons (.aggregate Expr.reduces_countStar _) ?_
    refine .cons (hof (a := .count) rfl (by decide) _) ?_
    refine .cons (hof (a := .sum) rfl (by decide) _) ?_
    refine .cons (hof (a := .min) rfl (by decide) _) ?_
    exact .cons (hof (a := .max) rfl (by decide) _) .nil

/-- A summary makes its table. -/
theorem Applies.aggregate_items (h : Applies t keys columnOf v c) (hheight : t.height < 2 ^ 63)
    {s : Summary} (hnodup : (keys ++ s.labels).Nodup) (hgs : Eager.groups keys t = .ok gs) :
    Eager.aggregate fs keys (s.items keys v) t = .ok (s.table keys columnOf c gs) := by
  refine Eager.aggregate_of_figures hgs (fun g hg => ?_) (Eager.hasFirst_of_groups hgs ?_) ?_ ?_
  · exact Nat.lt_of_le_of_lt (Eager.length_le_of_groups hgs g hg) hheight
  · rintro rfl
    simp [items, Reduced.isAggregate]
  · rwa [map_label_items]
  · rw [List.forall₂_map_right_iff]
    exact (h.of_items s).imp fun i f hf => ⟨f, hf, rfl⟩

/-- The rows of a summary have the keys of the rows of their groups. -/
theorem Applies.keyOf_table (h : Applies t fine columnOf v c) {s : Summary}
    (hnodup : (fine ++ s.labels).Nodup) (hgs : IsGrouping (t.keyOf fine) t.height gs)
    (hsub : coarse ⊆ fine) {j : Nat} (hj : j < gs.length) {row : Nat}
    (hrow : row ∈ gs.getD j []) :
    (s.table fine columnOf c gs).keyOf coarse j = t.keyOf coarse row := by
  refine List.map_congr_left fun k hk => ?_
  have hk : k ∈ fine := hsub hk
  have hfirst : t.keyOf fine ((gs.getD j []).headD 0) = t.keyOf fine row :=
    hgs.key_eq_first (by simp [hj]) hrow
  have hvalue : ((Figure.first k (columnOf k)).column gs).value j = (columnOf k).value row := by
    rw [Figure.value_column (fun g _ => (h.keyBasic k hk).fits_value _) hj]
    exact Table.value_eq_of_keyOf hfirst hk (h.key k hk) (h.keyBasic k hk)
  have hcolumn : (s.table fine columnOf c gs).column k =
      .ok ((Figure.first k (columnOf k)).column gs) := column_table hnodup (first_mem_figures hk)
  rw [hcolumn, h.key k hk]
  exact congrArg Scalar.identity hvalue

/-- The items that roll a summary up give what the items of a summary of its rows give. -/
theorem Applies.of_rollUp (h : Applies t fine columnOf v c) {inner : Summary}
    (hinner : (fine ++ inner.labels).Nodup) (outer : Summary) (hsub : coarse ⊆ fine)
    (hgs : ∀ g ∈ gs, g.length < 2 ^ 63) (hne : coarse ≠ [] → ∀ g ∈ groups, g ≠ [])
    (hpairs : List.Forall₂ (Eager.GoesWith t coarse gs) groups rows) :
    List.Forall₂ (fun i c' => ∃ f, Figure.Of fs (inner.table fine columnOf c gs) i f ∧
      c' = f.column groups) (outer.rollUp inner coarse)
      (outer.table coarse columnOf c rows).columns := by
  have hmid {f : Figure} (hf : f ∈ inner.figures fine columnOf c) :
      (inner.table fine columnOf c gs).column f.label = .ok (f.column gs) := column_table hinner hf
  have hrolled {a : Aggregate} {name : String} (hname : Aggregate.ofName? name = some a)
      (ha : a ≠ .avg) {f : Figure} (hf : f ∈ inner.figures fine columnOf c)
      (htype : f.type = .int64) (hrolls : a.RollsUp f.value) (label : String) :
      ∃ f', Figure.Of fs (inner.table fine columnOf c gs)
          (.aggregate (.call name [.column f.label]) label) f' ∧
        (⟨label, a.resultType f.type, f.value⟩ : Figure).column rows = f'.column groups := by
    have hitems : List.Forall₂ (Figure.Of fs t) (inner.items fine v)
        (inner.figures fine columnOf c) := h.of_items inner
    obtain ⟨i, -, hi⟩ := exists_of_mem_right hitems hf
    exact Figure.exists_rolledUp hname ⟨hi.basic, ha, fun _ => htype⟩ hi hrolls (hmid hf)
      (height_table inner) hgs hpairs label
  change List.Forall₂ _ _ (List.map _ (_ ++ _))
  rw [List.map_append]
  refine List.rel_append ?_ ?_
  · rw [List.map_map, List.forall₂_map_left_iff, List.forall₂_map_right_iff, List.forall₂_same]
    intro k hk
    exact Figure.exists_key hk (h.key k (hsub hk)) (h.keyBasic k (hsub hk))
      (hmid (first_mem_figures (hsub hk))) hgs (hne (List.ne_nil_of_mem hk)) hpairs
  · have hf {f : Figure} (hf : f ∈ [Figure.count inner.rows, .reduced inner.values .count c,
        .reduced inner.sum .sum c, .reduced inner.least .min c, .reduced inner.greatest .max c]) :
        f ∈ inner.figures fine columnOf c := List.mem_append_right _ hf
    refine .cons (hrolled (a := .sum) (f := .count inner.rows) rfl (by decide) (hf (by simp)) rfl
      Aggregate.rollsUp_rowCount _) ?_
    refine .cons (hrolled (a := .sum) (f := .reduced inner.values .count c) rfl (by decide)
      (hf (by simp)) rfl Aggregate.rollsUp_count _) ?_
    refine .cons (hrolled (a := .sum) (f := .reduced inner.sum .sum c) rfl (by decide)
      (hf (by simp)) h.type (Aggregate.rollsUp_sum h.basic h.type) _) ?_
    refine .cons (hrolled (a := .min) (f := .reduced inner.least .min c) rfl (by decide)
      (hf (by simp)) h.type (Aggregate.rollsUp_min h.basic h.type) _) ?_
    exact .cons (hrolled (a := .max) (f := .reduced inner.greatest .max c) rfl (by decide)
      (hf (by simp)) h.type (Aggregate.rollsUp_max h.basic h.type) _) .nil

/-- A summary by at least one key can be rolled up: summarizing it by some of its keys gives the
same table as summarizing the rows by them at once. -/
theorem rollUp_eq (fs : Functions) {t : Table} (ht : t.IsRectangular) (hheight : t.height < 2 ^ 32)
    {fine coarse : List String} (hne : fine ≠ []) (hsub : coarse ⊆ fine)
    (hkeys : ∀ k ∈ fine, ∃ d, t.column k = .ok d ∧ d.IsBasic) {v : String} {c : Column}
    (hv : t.column v = .ok c) (hc : c.IsBasic) (htype : c.type = .int64) {inner outer : Summary}
    (hinner : (fine ++ inner.labels).Nodup) (houter : (coarse ++ outer.labels).Nodup) :
    ∃ mid out, Eager.aggregate fs fine (inner.items fine v) t = .ok mid ∧
      Eager.aggregate fs coarse (outer.rollUp inner coarse) mid = .ok out ∧
      Eager.aggregate fs coarse (outer.items coarse v) t = .ok out := by
  have hnames : ∀ k ∈ fine, k ∈ t.names := by
    intro k hk
    obtain ⟨d, hd, -⟩ := hkeys k hk
    exact Table.mem_names_of_column hd
  obtain ⟨columnOf, hcolumn⟩ := Table.exists_columns hnames
  have h : Applies t fine columnOf v c := by
    refine ⟨hcolumn, fun k hk => ?_, hv, hc, htype, ht c (Table.mem_of_column hv).1⟩
    obtain ⟨d, hd, hbasic⟩ := hkeys k hk
    obtain rfl := Except.ok.inj ((hcolumn k hk).symm.trans hd)
    exact hbasic
  have hshort : t.height < 2 ^ 63 := by omega
  have hgs := Eager.groups_of_names hne hnames
  generalize (keysOf (t.keyOf fine) t.height).map (rowsOf (t.keyOf fine) t.height) = gs at hgs
  have hgrouping := Eager.isGrouping_groups hne hgs
  have hgsShort : ∀ g ∈ gs, g.length < 2 ^ 63 := fun g hg =>
    Nat.lt_of_le_of_lt (hgrouping.length_le g hg) hshort
  have hmidHeight : (inner.table fine columnOf c gs).height < 2 ^ 63 := by
    rw [height_table]
    exact Nat.lt_of_le_of_lt hgrouping.length_groups_le hshort
  have hmidNames : ∀ k ∈ coarse, k ∈ (inner.table fine columnOf c gs).names := by
    intro k hk
    rw [names_table]
    exact List.mem_append_left _ (hsub hk)
  obtain ⟨groups, rows, hgroups, hrows, hpairs⟩ := Eager.exists_groups hne hgs hsub hnames hmidNames
    (height_table inner) fun j hj row hrow => h.keyOf_table hinner hgrouping hsub hj hrow
  refine ⟨inner.table fine columnOf c gs, outer.table coarse columnOf c rows,
    h.aggregate_items hshort hinner hgs, ?_, (h.mono hsub).aggregate_items hshort houter hrows⟩
  refine Eager.aggregate_of_figures hgroups (fun g hg => ?_) (Eager.hasFirst_of_groups hgroups ?_)
    ?_ ?_
  · exact Nat.lt_of_le_of_lt (Eager.length_le_of_groups hgroups g hg) hmidHeight
  · rintro rfl
    simp [rollUp, Reduced.isAggregate]
  · rwa [map_label_rollUp]
  · exact h.of_rollUp hinner outer hsub hgsShort
      (fun hcoarse => (Eager.isGrouping_groups hcoarse hgroups).ne_nil) hpairs

/-- Visits to cities, some of them of no kind or without an amount. -/
def visits : Table :=
  ⟨[⟨"city", .str, [Scalar.str "ulm", .str "bonn", .str "ulm", .str "ulm"].map Scalar.cell⟩,
    ⟨"paid", .bool, [Scalar.bool true, .null, .bool false, .bool true].map Scalar.cell⟩,
    ⟨"amount", .int64, [Scalar.null, .int 3, .int 5, .int 7].map Scalar.cell⟩]⟩

def visitSummary : Summary :=
  ⟨"visits", "amounts", "total", "least", "greatest"⟩

/-- The summary of the visits by cities. -/
def visitsByCity : Table :=
  ⟨[⟨"city", .str, [.str "ulm", .str "bonn"]⟩, ⟨"visits", .int64, [.int 3, .int 1]⟩,
    ⟨"amounts", .int64, [.int 2, .int 1]⟩, ⟨"total", .int64, [.int 12, .int 3]⟩,
    ⟨"least", .int64, [.int 5, .int 3]⟩, ⟨"greatest", .int64, [.int 7, .int 3]⟩]⟩

theorem visits_rolled_up : ∃ mid,
    Eager.aggregate .builtin ["city", "paid"] (visitSummary.items ["city", "paid"] "amount") visits =
      .ok mid ∧
    Eager.aggregate .builtin ["city"] (visitSummary.rollUp visitSummary ["city"]) mid =
      .ok visitsByCity := by
  have hrect : visits.IsRectangular := by
    simp [visits, Table.IsRectangular, Table.height]
  have hkeys : ∀ k ∈ ["city", "paid"], ∃ d, visits.column k = .ok d ∧ d.IsBasic := by
    intro k hk
    rcases List.mem_pair.1 hk with rfl | rfl
    · exact ⟨_, rfl, Column.isBasic_of_scalars rfl (by decide)⟩
    · exact ⟨_, rfl, Column.isBasic_of_scalars rfl (by decide)⟩
  have hsub : ["city"] ⊆ ["city", "paid"] := by decide
  have hamount : visits.column "amount" =
      .ok ⟨"amount", .int64, [Scalar.null, .int 3, .int 5, .int 7].map Scalar.cell⟩ := rfl
  have hinner : (["city", "paid"] ++ visitSummary.labels).Nodup := by decide
  have houter : (["city"] ++ visitSummary.labels).Nodup := by decide
  obtain ⟨mid, out, hmid, hrolled, hdirect⟩ := rollUp_eq .builtin hrect (by decide)
    (List.cons_ne_nil _ _) hsub hkeys hamount (Column.isBasic_of_scalars rfl (by decide)) rfl hinner
    houter
  have hout : Eager.aggregate .builtin ["city"] (visitSummary.items ["city"] "amount") visits =
      .ok visitsByCity := rfl
  obtain rfl := Except.ok.inj (hdirect.symm.trans hout)
  exact ⟨mid, hmid, hrolled⟩

end Summary

end TableQuery
