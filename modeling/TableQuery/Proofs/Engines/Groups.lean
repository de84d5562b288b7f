import Mathlib.Algebra.BigOperators.Group.List.Basic
import TableQuery.Proofs.Engines.Reductions
import TableQuery.Proofs.GroupedRows

/-!
# Groupings on both engines

Both engines make the same groups, since cells are the same just if their values have one identity.
What is computed for each group stands in helper columns beside the keys on one engine, from which
the result is then selected; on the other engine the result is made at once.
-/

namespace TableQuery

section

variable {κ κ' : Type} {same : κ → κ → Bool} {same' : κ' → κ' → Bool} {key : Nat → κ}
  {key' : Nat → κ'}

/-- Groups of the same rows, each with the keys of one row. -/
def GroupsMatch (key : Nat → κ) (key' : Nat → κ') (gs : List (κ × List Nat))
    (gs' : List (κ' × List Nat)) : Prop :=
  List.Forall₂ (fun g g' => (∃ row, g.1 = key row ∧ g'.1 = key' row) ∧ g.2 = g'.2) gs gs'

theorem GroupsMatch.add (h : ∀ i j, same (key i) (key j) = same' (key' i) (key' j))
    {gs : List (κ × List Nat)} {gs' : List (κ' × List Nat)} (hgs : GroupsMatch key key' gs gs')
    (row : Nat) : GroupsMatch key key' (addToGroup same (key row) row gs)
      (addToGroup same' (key' row) row gs') := by
  induction hgs with
  | nil => exact .cons ⟨⟨row, rfl, rfl⟩, rfl⟩ .nil
  | @cons g g' rest rest' hg hrest ih =>
    obtain ⟨k, rows⟩ := g
    obtain ⟨k', rows'⟩ := g'
    obtain ⟨⟨first, hk, hk'⟩, hrows⟩ := hg
    dsimp only at hk hk' hrows
    subst hk hk' hrows
    rw [addToGroup, addToGroup, h first row]
    split
    · exact .cons ⟨⟨first, rfl, rfl⟩, rfl⟩ hrest
    · exact .cons ⟨⟨first, rfl, rfl⟩, rfl⟩ ih

/-- Tests that agree on the keys of all rows make the same groups. -/
theorem groupRows_congr (h : ∀ i j, same (key i) (key j) = same' (key' i) (key' j)) (n : Nat) :
    (groupRows same key n).map Prod.snd = (groupRows same' key' n).map Prod.snd := by
  have hmatch : GroupsMatch key key' (groupRows same key n) (groupRows same' key' n) := by
    induction n with
    | zero => exact .nil
    | succ n ih =>
      rw [groupRows, groupRows, List.range_succ, List.foldl_append, List.foldl_append]
      exact ih.add h n
  exact (map_eq_map_of_forall₂ (hmatch.imp fun _ _ hg => hg.2.symm)).symm

end

namespace Table

/-- Rows have the same key cells just if the values of their keys have the same identities. -/
theorem sameKeys_eq {columns : List Column} (h : ∀ c ∈ columns, c.IsBasic) (i j : Nat) :
    sameKeys ((columns.map fun c => c.cells.toArray).map fun cs => cs.getD i .null)
        ((columns.map fun c => c.cells.toArray).map fun cs => cs.getD j .null) =
      decide (((columns.map fun c => c.scalars.toArray).map fun xs => (xs.getD i .null).identity) =
        (columns.map fun c => c.scalars.toArray).map fun xs => (xs.getD j .null).identity) := by
  induction columns with
  | nil => rfl
  | cons c columns ih =>
    obtain ⟨hc, hcolumns⟩ := List.forall_mem_cons.1 h
    have hcell (row : Nat) : c.cells.toArray.getD row .null = (c.value row).cell :=
      hc.getD_cells row
    have hvalue (row : Nat) : c.scalars.toArray.getD row .null = c.value row :=
      Column.IsBasic.getD_scalars c row
    have hrest := ih hcolumns
    simp only [sameKeys] at hrest ⊢
    simp only [List.map_cons, List.zip_cons_cons, List.all_cons, hrest, hcell, hvalue,
      Scalar.same_cell (hc.fits_value i) (hc.fits_value j), List.cons.injEq, Bool.decide_and]

end Table

namespace Eager

/-- The groups by columns of a basic table are those by the cells. -/
theorem groups_eq {t : Table} (ht : t.IsBasic) {keys : List String} (hkeys : keys ≠ [])
    {columnOf : String → Column} (hcolumn : ∀ k ∈ keys, t.column k = .ok (columnOf k)) :
    groups keys t = .ok ((groupRows Table.sameKeys (fun row =>
      ((keys.map columnOf).map fun c => c.cells.toArray).map fun cs => cs.getD row .null)
      t.height).map Prod.snd) := by
  have hbasic : ∀ c ∈ keys.map columnOf, c.IsBasic := by
    refine List.forall_mem_map.2 fun k hk => ?_
    exact ht.columns _ (Table.mem_of_column (hcolumn k hk)).1
  have hkey : t.keyOf keys = fun row =>
      ((keys.map columnOf).map fun c => c.scalars.toArray).map fun xs =>
        (xs.getD row .null).identity :=
    funext fun row => by simp [keyOf_eq_map hcolumn]
  rw [groups_of_columns hkeys hcolumn, hkey]
  exact congrArg Except.ok (groupRows_congr (Table.sameKeys_eq hbasic) t.height).symm

end Eager

/-- An item of a grouped selection that is one of the keys, or a reduction. -/
def Reduced.IsPlain (keys : List String) (s : Schema) : Reduced → Prop
  | .key column _ => column ∈ keys
  | .aggregate e _ => e.IsReduction s

namespace Deferred

theorem toList_helper (i : Nat) : (helper i).toList = "__fq_agg_".toList ++ (toString i).toList := by
  simp [helper, String.toList_append]
  rfl

theorem not_isOrdinary_helper (i : Nat) : ¬Name.IsOrdinary (helper i) :=
  Name.not_isOrdinary_of_number (toList_helper i) (by decide) (by decide)

theorem helper_injective : Function.Injective helper :=
  fun i j h => Name.eq_of_number (toList_helper i) (toList_helper j) h

/-- Helper columns of a grouping: each has the type of its formula, and its cells for the groups. -/
def AreHelpers (t : Table) (gs : List (List Nat)) (aggregates : List Output)
    (helpers : List Column) : Prop :=
  List.Forall₂ (fun o c => c.name = o.1 ∧ o.2.typeOver t.schema = .ok c.type ∧
    t.evalGroups t.schema gs o = .ok c ∧ c.IsBasic ∧ c.cells.length = gs.length) aggregates helpers

theorem AreHelpers.map_name {t : Table} {gs : List (List Nat)} {aggregates : List Output}
    {helpers : List Column} (h : AreHelpers t gs aggregates helpers) :
    helpers.map Column.name = aggregates.map Prod.fst :=
  map_eq_map_of_forall₂ (h.imp fun _ _ ho => ho.1)

section

variable {t : Table} {gs : List (List Nat)} {aggregates : List Output} {helpers : List Column}
  {keys : List String} {columnOf : String → Column}

/-- Behind the key columns, the helper columns have the names of their formulas. -/
theorem AreHelpers.map_name_append (h : AreHelpers t gs aggregates helpers)
    (hcolumn : ∀ k ∈ keys, t.column k = .ok (columnOf k)) (firstRows : List (Option Nat)) :
    ((keys.map fun k => (columnOf k).take firstRows) ++ helpers).map Column.name =
      keys ++ aggregates.map Prod.fst := by
  have hkeys : ∀ k ∈ keys, (columnOf k).name = k := fun k hk => Table.column_name (hcolumn k hk)
  rw [List.map_append, h.map_name, List.map_map]
  exact congrArg (· ++ _) ((List.map_congr_left hkeys).trans (List.map_id' keys))

/-- Key columns and helper columns have a cell for every group. -/
theorem AreHelpers.isBasic_of_mem (h : AreHelpers t gs aggregates helpers) (ht : t.IsBasic)
    (hcolumn : ∀ k ∈ keys, t.column k = .ok (columnOf k)) {d : Column}
    (hd : d ∈ (keys.map fun k => (columnOf k).take (gs.map List.head?)) ++ helpers) :
    d.IsBasic ∧ d.cells.length = gs.length := by
  rcases List.mem_append.1 hd with hd | hd
  · obtain ⟨k, hk, rfl⟩ := List.mem_map.1 hd
    have hmem := (Table.mem_of_column (hcolumn k hk)).1
    exact ⟨(ht.columns _ hmem).take _, by simp [Column.take]⟩
  · obtain ⟨o, -, -, -, -, hd⟩ := exists_of_mem_right h hd
    exact hd

end

/-- The columns of a result are found among other ones under the names that their outputs tell. -/
def Outputs (sources : List Column) (columns : List Column) (outputs : List Output) : Prop :=
  List.Forall₂ (fun c o => ∃ d ∈ sources, o.2 = .column d.name ∧ c = { d with name := o.1 })
    columns outputs

theorem Outputs.mono {sources sources' columns : List Column} {outputs : List Output}
    (h : Outputs sources columns outputs) (hsub : ∀ c ∈ sources, c ∈ sources') :
    Outputs sources' columns outputs := by
  refine h.imp fun c o ho => ?_
  obtain ⟨d, hd, ho⟩ := ho
  exact ⟨d, hsub d hd, ho⟩

end Deferred

/-- A reduction over groups, as a column on the one engine and as a helper column on the other. -/
theorem Expr.Reduces.column {functions : Functions} {t : Table} {e : Expr} {f : Formula}
    {type : ColumnType} {value : List Nat → Scalar} (h : e.Reduces functions t f type value)
    {gs : List (List Nat)} (hgs : ∀ g ∈ gs, g.length < 2 ^ 63) :
    (∀ label, Eager.conform functions .group e t (.ofScalars label (gs.map value)) =
      ⟨label, type, gs.map fun g => (value g).cell⟩) ∧
    ∀ name, t.evalGroups t.schema gs (name, f) = .ok ⟨name, type, gs.map fun g => (value g).cell⟩ := by
  constructor
  · intro label
    have htype : Formula.typeOfExpr e t.schema functions .group = .ok type := by
      have hlowered := h.lowered
      rw [Deferred.lowered] at hlowered
      rw [Formula.typeOfExpr, hlowered, ok_bind, h.typed]
    have hfits : ∀ x ∈ gs.map value, x.fits type = true :=
      List.forall_mem_map.2 fun g hg => h.fits g (hgs g hg)
    rw [Eager.conform_of_fits htype h.basic hfits, List.map_map]
    rfl
  · intro name
    rw [Table.evalGroups, h.groups gs hgs]
    rfl

namespace Deferred

variable {functions : Functions} {t : Table} {gs : List (List Nat)} {keys : List String}

/-- The items of a grouped selection, made at once on the one engine: on the other engine they are
selected from the key columns and the helper columns, which are numbered from `n` on. -/
theorem reductions_alike (ht : t.IsBasic) (hgs : ∀ g ∈ gs, g.length < 2 ^ 63)
    {firstRows : List (Option Nat)} {columnOf : String → Column}
    (hcolumn : ∀ k ∈ keys, t.column k = .ok (columnOf k)) {made : Reduced → Except Fault Column}
    (hkey : ∀ source label, made (.key source label) =
      (t.column source).map fun c => { c.take firstRows with name := label })
    (haggregate : ∀ e label, made (.aggregate e label) =
      (Eager.groupValues functions gs e t).map fun values =>
        Eager.conform functions .group e t (.ofScalars label values))
    {items : List Reduced} (hitems : ∀ i ∈ items, i.IsPlain keys t.schema) (n : Nat) :
    GoAlike (fun columns r => ∃ helpers,
        r.1.map Prod.fst = (List.range' n r.1.length).map helper ∧ AreHelpers t gs r.1 helpers ∧
        Outputs ((keys.map fun k => (columnOf k).take firstRows) ++ helpers) columns r.2)
      (items.mapM made) (reductions functions t.schema n items) := by
  induction items generalizing n with
  | nil => exact .ok ⟨[], rfl, .nil, .nil⟩
  | cons i items ih =>
    obtain ⟨hi, hrest⟩ := List.forall_mem_cons.1 hitems
    rw [List.mapM_cons]
    cases i with
    | key source label =>
      have hmade : made (.key source label) =
          .ok { (columnOf source).take firstRows with name := label } := by
        rw [hkey, hcolumn source hi]
        rfl
      have hname : (columnOf source).name = source := Table.column_name (hcolumn source hi)
      rw [hmade, reductions, ok_bind]
      refine (ih hrest n).bind fun columns r hall => .ok ?_
      obtain ⟨helpers, hnames, hhelpers, houtputs⟩ := hall
      refine ⟨helpers, hnames, hhelpers, .cons ?_ houtputs⟩
      refine ⟨(columnOf source).take firstRows, ?_, congrArg Formula.column hname.symm, rfl⟩
      exact List.mem_append_left _ (List.mem_map_of_mem hi)
    | aggregate e label =>
      rw [haggregate, reductions]
      rcases hi.alike functions ht with ⟨f, hvalues, hlowered⟩ | ⟨f, type, value, h⟩
      · rw [hvalues, hlowered]
        exact .error f
      · obtain ⟨hconform, hhelper⟩ := h.column hgs
        rw [h.values gs hgs, h.lowered, map_ok, hconform, ok_bind, ok_bind]
        refine (ih hrest (n + 1)).bind fun columns r hall => .ok ?_
        obtain ⟨helpers, hnames, hhelpers, houtputs⟩ := hall
        let made : Column := ⟨helper n, type, gs.map fun g => (value g).cell⟩
        have hbasic : made.IsBasic := by
          refine ⟨h.basic, List.forall_mem_map.2 fun g hg => ?_⟩
          exact ⟨value g, h.fits g (hgs g hg), rfl⟩
        have hlength : made.cells.length = gs.length := List.length_map _
        refine ⟨made :: helpers, ?_, ?_, ?_⟩
        · rw [List.map_cons, hnames, List.length_cons, List.range'_succ, List.map_cons]
        · exact .cons ⟨rfl, h.typed, hhelper _, hbasic, hlength⟩ hhelpers
        · refine .cons ⟨made, List.mem_append_right _ List.mem_cons_self, rfl, rfl⟩ ?_
          refine houtputs.mono fun c hc => ?_
          rcases List.mem_append.1 hc with hc | hc
          · exact List.mem_append_left _ hc
          · exact List.mem_append_right _ (List.mem_cons_of_mem _ hc)

end Deferred

/-- A grouping with helper columns. -/
theorem Plan.standsFor_aggregate {p : Plan} {t : Table} (hp : p.StandsFor t) {keys : List String}
    {columnOf : String → Column} (hcolumn : ∀ k ∈ keys, t.column k = .ok (columnOf k))
    {groups : List (List Cell × List Nat)} (hgroups : groupRows Table.sameKeys (fun row =>
      ((keys.map columnOf).map fun c => c.cells.toArray).map fun cs => cs.getD row .null)
      t.height = groups) {aggregates : List Output} {helpers : List Column}
    (hhelpers : Deferred.AreHelpers t (groups.map Prod.snd) aggregates helpers)
    (hnodup : (keys ++ aggregates.map Prod.fst).Nodup) :
    (Plan.aggregate keys aggregates p).StandsFor
      ⟨(keys.map fun k => (columnOf k).take ((groups.map Prod.snd).map List.head?)) ++
        helpers⟩ := by
  have hdistinct : Table.distinct (keys ++ aggregates.map Prod.fst) = .ok () :=
    Table.distinct_eq_ok.2 hnodup
  have htypes : t.schema.select keys = .ok (keys.map fun k => (k, (columnOf k).type)) := by
    refine mapM_eq_ok_map fun k hk => ?_
    simp only [Table.typeOf_of_column (hcolumn k hk)]
    rfl
  have htypes' : t.schema.ofOutputs aggregates = .ok (Table.schema ⟨helpers⟩) :=
    Schema.ofOutputs_eq (List.nodup_append.1 hnodup).2.1
      (hhelpers.imp fun o c hc => ⟨hc.1, hc.2.1⟩)
  constructor
  · have hschema : Table.schema
        ⟨(keys.map fun k => (columnOf k).take ((groups.map Prod.snd).map List.head?)) ++ helpers⟩ =
        (keys.map fun k => (k, (columnOf k).type)) ++ Table.schema ⟨helpers⟩ := by
      have hkeys : ∀ k ∈ keys, ((columnOf k).name, (columnOf k).type) = (k, (columnOf k).type) :=
        fun k hk => by rw [Table.column_name (hcolumn k hk)]
      simpa [Table.schema, Column.take, Function.comp_def] using hkeys
    rw [Plan.schema, hp.schema, ok_bind, hdistinct, ok_bind, htypes, ok_bind, htypes', hschema]
    rfl
  · have hcolumns : keys.mapM t.column = .ok (keys.map columnOf) := mapM_eq_ok_map hcolumn
    have hfirst : groups.map (fun g => g.2.head?) = (groups.map Prod.snd).map List.head? := by
      rw [List.map_map]
      rfl
    have hreduced : aggregates.mapM (t.evalGroups t.schema (groups.map Prod.snd)) = .ok helpers :=
      mapM_eq_ok.2 (hhelpers.imp fun o c ho => ho.2.2.1)
    rw [Plan.collect, hp.collect, ok_bind, hp.schema, ok_bind, Table.aggregate, hdistinct, ok_bind,
      hcolumns, ok_bind]
    dsimp only
    rw [hgroups, hreduced, ok_bind, hfirst, List.map_map]
    rfl

namespace IsGrouping

variable {κ : Type} [DecidableEq κ] {key : Nat → κ} {n : Nat} {gs : List (List Nat)}

/-- No group has more rows than there are. -/
theorem length_le (h : IsGrouping key n gs) : ∀ g ∈ gs, g.length ≤ n := by
  intro g hg
  have hle := (List.sublist_flatten_of_mem hg).length_le
  rwa [List.length_flatten, h.sum_length] at hle

/-- There are no more groups than rows. -/
theorem length_groups_le (h : IsGrouping key n gs) : gs.length ≤ n := by
  have hpos : ∀ i ∈ gs.map List.length, 1 ≤ i := by
    refine List.forall_mem_map.2 fun g hg => ?_
    exact List.length_pos_iff.2 (h.ne_nil g hg)
  have hle := List.length_le_sum_of_one_le _ hpos
  rwa [List.length_map, h.sum_length] at hle

end IsGrouping

namespace Deferred

/-- Keys that are ordinary and different are different from the helpers too. -/
theorem nodup_keys_helpers {keys : List String} (hkeys : keys.Nodup)
    (hordinary : ∀ k ∈ keys, Name.IsOrdinary k) (n length : Nat) :
    (keys ++ (List.range' n length).map helper).Nodup := by
  refine List.nodup_append'.2 ⟨hkeys, List.Nodup.map helper_injective List.nodup_range',
    fun k hk hmem => ?_⟩
  obtain ⟨i, -, rfl⟩ := List.mem_map.1 hmem
  exact not_isOrdinary_helper i (hordinary _ hk)

end Deferred

namespace Eager

variable {functions : Functions} {p : Plan} {t : Table} {keys : List String} {items : List Reduced}

/-- What is made of the items at once, and what is selected from helper columns. -/
theorem selected_alike (hp : p.StandsFor t) (ht : t.IsBasic) (hkeys : keys.Nodup)
    (hordinary : ∀ k ∈ keys, Name.IsOrdinary k) {columnOf : String → Column}
    (hcolumn : ∀ k ∈ keys, t.column k = .ok (columnOf k))
    {groups : List (List Cell × List Nat)} (hgroups : groupRows Table.sameKeys (fun row =>
      ((keys.map columnOf).map fun c => c.cells.toArray).map fun cs => cs.getD row .null)
      t.height = groups) (hgs : ∀ g ∈ groups.map Prod.snd, g.length < 2 ^ 63)
    {made : Reduced → Except Fault Column}
    (hkey : ∀ source label, made (.key source label) = (t.column source).map fun c =>
      { c.take ((groups.map Prod.snd).map List.head?) with name := label })
    (haggregate : ∀ e label, made (.aggregate e label) =
      (groupValues functions (groups.map Prod.snd) e t).map fun values =>
        conform functions .group e t (.ofScalars label values))
    (hitems : ∀ i ∈ items, i.IsPlain keys t.schema) (hlabels : (items.map Reduced.label).Nodup) :
    Alike (fun t' => t'.IsBasic ∧ t'.height ≤ groups.length)
      (do return ⟨← items.mapM made⟩)
      (do
        let r ← Deferred.reductions functions t.schema 0 items
        return .project r.2 (.aggregate keys r.1 p)) := by
  rcases Deferred.reductions_alike ht hgs hcolumn hkey haggregate hitems 0 with
    ⟨f, hmade, hreductions⟩ |
    ⟨columns, ⟨aggregates, outputs⟩, hmade, hreductions, helpers, hnames, hhelpers, houtputs⟩
  · rw [hmade, hreductions]
    exact .inr ⟨f, rfl, .inl rfl⟩
  · rw [hmade, hreductions]
    have hall := Deferred.nodup_keys_helpers hkeys hordinary 0 aggregates.length
    rw [← hnames] at hall
    have hstands := Plan.standsFor_aggregate hp hcolumn hgroups hhelpers hall
    have hcolumns : ∀ c ∈ columns, c.IsBasic ∧ c.cells.length = groups.length := by
      intro c hc
      obtain ⟨o, -, d, hd, -, rfl⟩ := exists_of_mem_left houtputs hc
      obtain ⟨hd, hlength⟩ := hhelpers.isBasic_of_mem ht hcolumn hd
      exact ⟨⟨hd.type, hd.cells⟩, hlength.trans (List.length_map _)⟩
    have hmapped : columns.map Column.name = items.map Reduced.label := by
      refine map_of_mapM (fun i c hc => ?_) hmade
      cases i with
      | key source label =>
        rw [hkey] at hc
        obtain ⟨d, -, rfl⟩ := map_eq_ok.1 hc
        rfl
      | aggregate e label =>
        rw [haggregate] at hc
        obtain ⟨values, -, rfl⟩ := map_eq_ok.1 hc
        exact name_conform _ _ _ _ _
    rw [← hmapped] at hlabels
    refine .inl ⟨⟨columns⟩, _, rfl, rfl, Plan.standsFor_project hstands hlabels ?_, ?_⟩
    · refine houtputs.imp fun c o ho => ?_
      obtain ⟨d, hd, ho, hc⟩ := ho
      have hnodup := hall
      rw [← hhelpers.map_name_append hcolumn] at hnodup
      exact ⟨d.name, d, Table.column_of_mem hnodup hd, ho, hc⟩
    · exact Table.isBasic_of_columns hlabels (fun c hc => (hcolumns c hc).1) fun c hc =>
        (hcolumns c hc).2

/-- Groupings by at least one key are alike. -/
theorem aggregate_alike_of_keys (hp : p.StandsFor t) (ht : t.IsBasic) (hheight : t.height < 2 ^ 63)
    (hne : keys ≠ []) (hkeys : keys.Nodup)
    (hmem : ∀ k ∈ keys, k ∈ t.names) (hordinary : ∀ k ∈ keys, Name.IsOrdinary k)
    (hitems : ∀ i ∈ items, i.IsPlain keys t.schema) :
    Alike (fun t' => t'.IsBasic ∧ t'.height ≤ t.height) (aggregate functions keys items t)
      (Deferred.aggregate functions keys items p) := by
  obtain ⟨columnOf, hcolumn⟩ := Table.exists_columns hmem
  have hgroups := groups_eq ht hne hcolumn
  have hgrouping := isGrouping_groups hne hgroups
  generalize hmade : groupRows Table.sameKeys (fun row =>
    ((keys.map columnOf).map fun c => c.cells.toArray).map fun cs => cs.getD row .null)
    t.height = made at hgroups hgrouping
  have hgs : ∀ g ∈ made.map Prod.snd, g.length < 2 ^ 63 := fun g hg =>
    Nat.lt_of_le_of_lt (hgrouping.length_le g hg) hheight
  have hcount : made.length ≤ t.height := by
    rw [← List.length_map Prod.snd]
    exact hgrouping.length_groups_le
  have hempty : keys.isEmpty = false := by simpa using hne
  rw [aggregate, Deferred.aggregate]
  cases hdistinct : distinctOutputs (items.map Reduced.label) with
  | error f => exact .inr ⟨f, rfl, .inl rfl⟩
  | ok u =>
    simp only [ok_bind, hgroups, hp.schema, hempty, Bool.false_eq_true, if_false,
      filterMap_head? hgrouping.ne_nil]
    have hbound : ∀ t' : Table, t'.IsBasic ∧ t'.height ≤ made.length →
        t'.IsBasic ∧ t'.height ≤ t.height :=
      fun t' ht' => ⟨ht'.1, Nat.le_trans ht'.2 hcount⟩
    refine Alike.mono ?_ hbound
    refine selected_alike hp ht hkeys hordinary hcolumn hmade hgs (fun source label => ?_)
      (fun e label => ?_) hitems (distinctOutputs_eq_ok.1 hdistinct)
    · dsimp only
      cases t.column source <;> rfl
    · dsimp only
      cases groupValues functions (made.map Prod.snd) e t <;> rfl

end Eager

/-- Formulas that each have one value over the whole table, as a table of one row. -/
theorem Plan.standsFor_constants {p : Plan} {t : Table} (hp : p.StandsFor t) {columns : List Column}
    {outputs : List Output} (hnodup : (columns.map Column.name).Nodup)
    (h : List.Forall₂ (fun c o => ∃ cell, c = ⟨o.1, c.type, [cell]⟩ ∧
      o.2.typeOver t.schema = .ok c.type ∧
      o.2.eval t.schema t none = .ok ⟨c.type, .constant cell⟩) columns outputs) :
    (Plan.project outputs p).StandsFor ⟨columns⟩ := by
  refine standsFor_project_of_values hp hnodup (fun c => .constant (c.cells.head?.getD .null))
    (h.imp fun c o hc => ?_) fun c hc => ?_
  · obtain ⟨cell, hc, htype, heval⟩ := hc
    have hcell : c.cells.head?.getD .null = cell := by rw [hc]; rfl
    exact ⟨by rw [hc], htype, by rw [heval, hcell]⟩
  · obtain ⟨o, -, cell, hc, -⟩ := exists_of_mem_left h hc
    have hrows : (columns.all fun c =>
        (Spread.constant (c.cells.head?.getD Cell.null)).isConstant) = true :=
      List.all_eq_true.2 fun _ _ => rfl
    rw [if_pos hrows, hc]
    rfl

/-- Aggregates of a whole table are alike. -/
theorem Eager.aggregate_alike_of_nil {functions : Functions} {p : Plan} {t : Table}
    {items : List Reduced} (hp : p.StandsFor t) (ht : t.IsBasic) (hheight : t.height < 2 ^ 63)
    (hitems : ∀ i ∈ items, i.IsPlain [] t.schema) :
    Alike (fun t' => t'.IsBasic ∧ t'.height ≤ 1) (aggregate functions [] items t)
      (Deferred.aggregate functions [] items p) := by
  have hgs : ∀ g ∈ [List.range t.height], g.length < 2 ^ 63 := by simpa using hheight
  rw [aggregate, Deferred.aggregate]
  cases hdistinct : distinctOutputs (items.map Reduced.label) with
  | error f => exact .inr ⟨f, rfl, .inl rfl⟩
  | ok u =>
    simp only [ok_bind, groups_nil, hp.schema, List.isEmpty_nil, if_true]
    refine Alike.of_mapM (r := fun c o => c.IsBasic ∧ ∃ cell, c = ⟨o.1, c.type, [cell]⟩ ∧
      o.2.typeOver t.schema = .ok c.type ∧
      o.2.eval t.schema t none = .ok ⟨c.type, .constant cell⟩) (fun i hi => ?_)
      fun columns outputs hcs h => ?_
    · cases i with
      | key source label => exact absurd (hitems _ hi) List.not_mem_nil
      | aggregate e label =>
        have he : e.IsReduction t.schema := hitems _ hi
        rcases he.alike functions ht with
          ⟨f, hvalues, hlowered⟩ | ⟨f, type, value, h⟩
        · refine .inl ⟨f, ?_, ?_⟩
          · simp only [hvalues]
            rfl
          · simp only [hlowered]
            rfl
        · obtain ⟨hconform, -⟩ := h.column hgs
          have hfits : (value (List.range t.height)).fits type = true :=
            h.fits _ (hgs _ (List.mem_singleton_self _))
          refine .inr ⟨⟨label, type, [(value (List.range t.height)).cell]⟩, (label, f), ?_, ?_, ?_⟩
          · simp only [h.values _ hgs, ok_bind, hconform]
            rfl
          · simp only [h.lowered]
            rfl
          · refine ⟨⟨h.basic, fun c hc => ?_⟩, _, rfl, h.typed, h.whole hheight⟩
            exact ⟨_, hfits, (List.mem_singleton.1 hc).symm⟩
    · have haggregate : aggregate functions [] items t = .ok ⟨columns⟩ := by
        rw [aggregate, hdistinct, ok_bind, groups_nil, ok_bind]
        exact bind_eq_ok.2 ⟨columns, hcs, rfl⟩
      obtain ⟨hnames, hlabels⟩ := names_aggregate haggregate
      rw [← hnames] at hlabels
      have hbasic : ∀ c ∈ columns, c.IsBasic ∧ c.cells.length = 1 := by
        intro c hc
        obtain ⟨o, -, hbasic, cell, hc, -⟩ := exists_of_mem_left h hc
        refine ⟨hbasic, ?_⟩
        rw [hc]
        rfl
      exact ⟨Plan.standsFor_constants hp hlabels (h.imp fun _ _ hc => hc.2),
        Table.isBasic_of_columns hlabels (fun c hc => (hbasic c hc).1) fun c hc => (hbasic c hc).2⟩

/-- Groupings by different columns, or of a whole table, are alike. -/
theorem Eager.aggregate_alike {functions : Functions} {p : Plan} {t : Table} {keys : List String}
    {items : List Reduced} (hp : p.StandsFor t) (ht : t.IsBasic) (ho : t.HasOrdinaryNames)
    (hheight : t.height < UInt32.size) (hkeys : keys.Nodup) (hmem : ∀ k ∈ keys, k ∈ t.names)
    (hitems : ∀ i ∈ items, i.IsPlain keys t.schema) :
    Alike (fun t' => t'.IsBasic ∧ t'.height < UInt32.size) (aggregate functions keys items t)
      (Deferred.aggregate functions keys items p) := by
  have hsize : UInt32.size < 2 ^ 63 := by decide
  have hheight' : t.height < 2 ^ 63 := by omega
  by_cases hne : keys = []
  · subst hne
    have hbound : ∀ t' : Table, t'.IsBasic ∧ t'.height ≤ 1 → t'.IsBasic ∧ t'.height < UInt32.size :=
      fun t' ht' => ⟨ht'.1, Nat.lt_of_le_of_lt ht'.2 (by decide)⟩
    exact (aggregate_alike_of_nil hp ht hheight' hitems).mono hbound
  · have hbound : ∀ t' : Table, t'.IsBasic ∧ t'.height ≤ t.height →
        t'.IsBasic ∧ t'.height < UInt32.size :=
      fun t' ht' => ⟨ht'.1, Nat.lt_of_le_of_lt ht'.2 hheight⟩
    exact (aggregate_alike_of_keys hp ht hheight' hne hkeys hmem (fun k hk => ho k (hmem k hk))
      hitems).mono hbound

end TableQuery
