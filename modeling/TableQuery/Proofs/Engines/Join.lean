import TableQuery.Proofs.Engines.Alike

/-!
# Joins on both engines

A join that is put off fails by the types of its plan for the reasons for which a join of tables
fails: a key that is missing or of another type, or a name that is taken. Otherwise its plan stands
for the joined table.
-/

namespace TableQuery

open Name

namespace Table

theorem schema_put (t : Table) (c : Column) : (t.put c).schema = t.schema.put (c.name, c.type) := by
  unfold Table.put Schema.put
  rw [map_fst_schema]
  split
  · simp only [schema, List.map_map]
    refine List.map_congr_left fun d _ => ?_
    by_cases h : d.name = c.name <;> simp [h]
  · simp [schema]

theorem schema_rename (f : String → String) (t : Table) :
    (t.rename f).schema = t.schema.map fun c => (f c.1, c.2) := by
  simp [rename, schema, Function.comp_def]

theorem schema_ofSchema (s : Schema) : (ofSchema s).schema = s := by
  simp [ofSchema, schema, Function.comp_def]

/-- A column of the table without rows has the type of the one with rows. -/
theorem column_ofSchema (t : Table) (name : String) :
    (ofSchema t.schema).column name = (t.column name).map fun c => { c with cells := [] } := by
  obtain ⟨columns⟩ := t
  induction columns with
  | nil => rfl
  | cons c columns ih =>
    by_cases h : c.name = name
    · simp [column, ofSchema, schema, h]
    · simpa [column, ofSchema, schema, h] using ih

/-- Whether keys go together depends on their names and types alone. -/
theorem keyCells_ofSchema (left right : Table) (on : List (String × String)) :
    GoAlike (List.Forall₂ fun _ _ => True)
      (keyCells (ofSchema left.schema) (ofSchema right.schema) on) (keyCells left right on) := by
  refine GoAlike.mapM fun k _ => ?_
  obtain ⟨a, b⟩ := k
  simp only [column_ofSchema]
  cases left.column a with
  | error f => exact .error f
  | ok c =>
    cases right.column b with
    | error f => exact .error f
    | ok d =>
      simp only [map_ok, ok_bind]
      by_cases h : c.type = d.type
      · simp only [h, ne_eq, not_true_eq_false, if_false]
        exact .ok trivial
      · simp only [ne_eq, h, not_false_eq_true, if_true]
        exact .error _

theorem without_ofSchema (names : List String) (t : Table) :
    (ofSchema t.schema).without names = ofSchema (t.without names).schema := by
  simp [ofSchema, schema, without, List.filter_map, Function.comp_def]

theorem schema_paired (rows : List (Option Nat × Option Nat)) (left right : Table) :
    schema ⟨paired rows left right⟩ = left.schema ++ right.schema := by
  simp [paired, schema, Function.comp_def, Column.take]

/-- Columns of the same names and types are distinct alike. -/
theorem map_schema_distinct {columns columns' : List Column}
    (h : schema ⟨columns⟩ = schema ⟨columns'⟩) :
    (do distinct (columns.map Column.name); return ⟨columns⟩ : Except Fault Table).map schema =
      (do distinct (columns'.map Column.name); return ⟨columns'⟩ : Except Fault Table).map
        schema := by
  have hnames : columns.map Column.name = columns'.map Column.name := by
    have := congrArg (List.map Prod.fst) h
    rwa [map_fst_schema, map_fst_schema] at this
  rw [hnames]
  cases distinct (columns'.map Column.name) with
  | error f => rfl
  | ok _ => exact congrArg Except.ok h

/-- Whether tables can be joined, and with which columns, depends on the names and types of their
columns alone. -/
theorem join_ofSchema (mode : JoinMode) (on : List (String × String)) (left right : Table) :
    (join mode on (ofSchema left.schema) (ofSchema right.schema)).map schema =
      (join mode on left right).map schema := by
  unfold join
  by_cases hon : on.isEmpty
  · simp only [hon, if_true]
    rfl
  · simp only [hon]
    rcases keyCells_ofSchema left right on with ⟨f, hkeys, hkeys'⟩ | ⟨keys, keys', hkeys, hkeys', -⟩
    · rw [hkeys, hkeys']
      rfl
    · rw [hkeys, hkeys']
      simp only [ok_bind]
      cases mode <;>
      · refine map_schema_distinct ?_
        simp only [without_ofSchema]
        refine (schema_paired _ _ _).trans (Eq.trans ?_ (schema_paired _ _ _).symm)
        simp only [schema_rename, schema_ofSchema, names_ofSchema, map_fst_schema]

end Table

namespace Plan.StandsFor

variable {p : Plan} {t : Table}

theorem rename (h : p.StandsFor t) (names : List (String × String)) :
    (Plan.rename names p).StandsFor (t.rename (JoinPlan.newName names)) := by
  constructor
  · rw [Plan.schema, h.schema, Table.schema_rename]
    rfl
  · rw [Plan.collect, h.collect]
    rfl

/-- A join of plans promises what the join of the tables has. -/
theorem schema_join {pl pr : Plan} {l r : Table} (hl : pl.StandsFor l) (hr : pr.StandsFor r)
    (mode : JoinMode) (on : List (String × String)) :
    (Plan.join mode on pl pr).schema = (Table.join mode on l r).map Table.schema := by
  rw [Plan.schema, hl.schema, ok_bind, hr.schema, ok_bind, ← Table.join_ofSchema]
  cases Table.join mode on (.ofSchema l.schema) (.ofSchema r.schema) <;> rfl

/-- A selection of columns by their own names. -/
theorem copies {names : List String} {s : Table} (h : p.StandsFor t)
    (hselect : t.select names = .ok s) (hnodup : names.Nodup) :
    (Plan.project (Deferred.copies names) p).StandsFor s := by
  have hcolumns := Table.select_eq_ok hselect
  have hnames := Table.map_name_of_columns hcolumns
  refine standsFor_project h (hnames ▸ hnodup) ?_
  rw [Deferred.copies, List.forall₂_map_right_iff]
  refine hcolumns.flip.imp fun c name hc => ⟨name, c, hc, rfl, ?_⟩
  rw [← Table.column_name hc]

end Plan.StandsFor

namespace Deferred

theorem schema_withKeys_error {columns : List (String × String)} {p : Plan} {f : Fault}
    (h : p.schema = .error f) : (withKeys columns p).schema = .error f := by
  induction columns generalizing p with
  | nil => exact h
  | cons c columns ih =>
    refine ih ?_
    rw [Plan.schema, h]
    rfl

/-- Key columns are put behind the others on both engines, or one of them is missing, which shows in
the types of the plan. -/
theorem withKeys_alike (columns : List (String × String)) {p : Plan} {t : Table}
    (h : p.StandsFor t) :
    (∃ t', Eager.withKeys columns t = .ok t' ∧ (withKeys columns p).StandsFor t') ∨
      ∃ f, Eager.withKeys columns t = .error f ∧ (withKeys columns p).schema = .error f := by
  induction columns generalizing p t with
  | nil => exact .inl ⟨t, rfl, h⟩
  | cons c columns ih =>
    obtain ⟨source, name⟩ := c
    have hschema := Plan.schema_extend_column h.schema source name
    have hcollect := Plan.collect_extend_column h.schema h.collect source name
    rw [Table.typeOf_schema] at hschema
    rw [Eager.withKeys_cons]
    cases hc : t.column source with
    | error f =>
      rw [hc] at hschema
      exact .inr ⟨f, rfl, schema_withKeys_error (p := .extend _ p) hschema⟩
    | ok d =>
      rw [hc] at hschema hcollect
      refine ih ⟨?_, hcollect⟩
      rw [Table.schema_put]
      exact hschema

end Deferred

namespace Table

/-- Columns of two basic tables with cells from pairs of rows make a basic table, if their names are
different. -/
theorem isBasic_paired {left right : Table} (hl : left.IsBasic) (hr : right.IsBasic)
    {rows : List (Option Nat × Option Nat)}
    (hnodup : ((paired rows left right).map Column.name).Nodup) :
    IsBasic ⟨paired rows left right⟩ := by
  refine (isBasic_of_columns hnodup (fun c hc => ?_) fun c => length_cells_of_mem_paired).1
  rcases List.mem_append.1 hc with hc | hc
  · obtain ⟨d, hd, rfl⟩ := List.mem_map.1 hc
    exact (hl.columns d hd).take _
  · obtain ⟨d, hd, rfl⟩ := List.mem_map.1 hc
    exact (hr.columns d hd).take _

/-- A basic table whose columns get new names that are different stays basic. -/
theorem IsBasic.rename {t : Table} (ht : t.IsBasic) {f : String → String}
    (hnodup : (t.names.map f).Nodup) : (t.rename f).IsBasic := by
  let renamed (c : Column) : Column := { c with name := f c.name }
  have hnames : ((t.columns.map renamed).map Column.name).Nodup := by
    rw [← names_rename] at hnodup
    exact hnodup
  have hbasic : ∀ c ∈ t.columns, (renamed c).IsBasic := by
    intro c hc
    exact ⟨(ht.columns c hc).type, (ht.columns c hc).cells⟩
  exact (isBasic_of_columns hnames (List.forall_mem_map.2 hbasic)
    (List.forall_mem_map.2 ht.rectangular)).1

end Table

theorem Deferred.join_eq (p : JoinPlan) (left right : Plan) :
    Deferred.join p left right = (do
      let names ← left.names
      let renames ← p.renamedRight names (← right.names)
      return .project (copies (names ++ renames.map Prod.snd)) (.join p.mode p.copiedKeys
        (withKeys p.leftCopies left) (withKeys (p.rightCopies renames) (.rename renames right)))) :=
  rfl

namespace Eager

theorem join_eq (p : JoinPlan) (left right : Table) :
    join p left right = (do
      let renames ← p.renamedRight left.names right.names
      let l ← withKeys p.leftCopies left
      let r ← withKeys (p.rightCopies renames) (right.rename (JoinPlan.newName renames))
      let joined ← Table.join p.mode p.copiedKeys l r
      joined.select (left.names ++ renames.map Prod.snd)) :=
  rfl

end Eager

/-- The plan of a join stands for the joined table, if the plans of its two sides, with their keys,
do. -/
theorem Plan.StandsFor.join {p : JoinPlan} {left right l r joined : Table} {pl pr : Plan}
    {renames : List (String × String)} (hsl : pl.StandsFor l) (hsr : pr.StandsFor r)
    (hlo : left.HasOrdinaryNames) (hro : right.HasOrdinaryNames)
    (hrenames : p.renamedRight left.names right.names = .ok renames)
    (hwl : Eager.withKeys p.leftCopies left = .ok l)
    (hwr : Eager.withKeys (p.rightCopies renames) (right.rename (JoinPlan.newName renames)) = .ok r)
    (hjoined : Table.join p.mode p.copiedKeys l r = .ok joined) {out : Table}
    (hselect : joined.select (left.names ++ renames.map Prod.snd) = .ok out) :
    (Plan.project (Deferred.copies (left.names ++ renames.map Prod.snd))
      (.join p.mode p.copiedKeys pl pr)).StandsFor out := by
  obtain ⟨keys, -, hselect', hnodup⟩ := Eager.select_of_join hlo hro hrenames hwl hwr hjoined
  rw [hselect] at hselect'
  cases hselect'
  have hselected := Table.map_name_of_columns (Table.select_eq_ok hselect)
  refine StandsFor.copies ⟨?_, ?_⟩ hselect (hselected ▸ hnodup)
  · rw [hsl.schema_join hsr, hjoined]
    rfl
  · rw [Plan.collect, hsl.collect, ok_bind, hsr.collect, ok_bind, hjoined]

namespace Eager

/-- Basic tables with ordinary names are joined to such a table. -/
theorem basic_of_join {p : JoinPlan} {left right out : Table} (hl : left.IsBasic) (hr : right.IsBasic)
    (hlo : left.HasOrdinaryNames) (hro : right.HasOrdinaryNames) (h : join p left right = .ok out) :
    out.IsBasic ∧ out.HasOrdinaryNames := by
  obtain ⟨renames, related, hrenames, hcolumns, hnodup⟩ := columns_of_join hlo hro h
  obtain ⟨columns⟩ := out
  obtain rfl := hcolumns
  rw [Table.names, Table.map_name_paired, Table.names_rename] at hnodup
  constructor
  · have hright := hr.rename (List.nodup_append.1 hnodup).2.1
    refine Table.isBasic_paired hl hright ?_
    rwa [Table.map_name_paired, Table.names_rename]
  · intro name hname
    rw [Table.names, Table.map_name_paired] at hname
    rcases List.mem_append.1 hname with hname | hname
    · exact hlo name hname
    · exact hasOrdinaryNames_rename hro hrenames name hname

/-- Joins with the same plan are alike. A plan shows no fault before its types are looked at, where
a table fails at once. -/
theorem join_alike {p : JoinPlan} {pl pr : Plan} {left right : Table} (hpl : pl.StandsFor left)
    (hpr : pr.StandsFor right) (hlo : left.HasOrdinaryNames) (hro : right.HasOrdinaryNames) :
    Alike (fun t => join p left right = .ok t) (join p left right) (Deferred.join p pl pr) := by
  rw [join_eq, Deferred.join_eq, hpl.names, hpr.names]
  simp only [ok_bind]
  cases hrenames : p.renamedRight left.names right.names with
  | error f => exact .inr ⟨f, rfl, .inl rfl⟩
  | ok renames =>
    simp only [ok_bind]
    have hleft := Deferred.withKeys_alike p.leftCopies hpl
    have hright := Deferred.withKeys_alike (p.rightCopies renames) (hpr.rename renames)
    rcases hleft with ⟨l, hwl, hsl⟩ | ⟨f, hwl, hschema⟩
    · rcases hright with ⟨r, hwr, hsr⟩ | ⟨f, hwr, hschema⟩
      · rw [hwl, ok_bind, hwr, ok_bind]
        cases hjoined : Table.join p.mode p.copiedKeys l r with
        | error f =>
          refine .inr ⟨f, rfl, .inr ⟨_, rfl, ?_⟩⟩
          rw [Plan.schema, hsl.schema_join hsr p.mode p.copiedKeys, hjoined]
          rfl
        | ok joined =>
          obtain ⟨keys, -, hselect, -⟩ := select_of_join hlo hro hrenames hwl hwr hjoined
          have hstands := hsl.join hsr hlo hro hrenames hwl hwr hjoined hselect
          exact .inl ⟨_, _, hselect, rfl, hstands, hselect⟩
      · refine .inr ⟨f, ?_, .inr ⟨_, rfl, ?_⟩⟩
        · rw [hwl, ok_bind, hwr]
          rfl
        · rw [Plan.schema, Plan.schema, hsl.schema, ok_bind, hschema]
          rfl
    · refine .inr ⟨f, ?_, .inr ⟨_, rfl, ?_⟩⟩
      · rw [hwl]
        rfl
      · rw [Plan.schema, Plan.schema, hschema]
        rfl

/-- Joins of basic tables are alike, and give basic tables. -/
theorem join_alike_basic {p : JoinPlan} {pl pr : Plan} {left right : Table} (hpl : pl.StandsFor left)
    (hpr : pr.StandsFor right) (hl : left.IsBasic) (hr : right.IsBasic)
    (hlo : left.HasOrdinaryNames) (hro : right.HasOrdinaryNames) :
    Alike (fun t => t.IsBasic ∧ t.HasOrdinaryNames) (join p left right)
      (Deferred.join p pl pr) :=
  (join_alike hpl hpr hlo hro).mono fun _ h => basic_of_join hl hr hlo hro h

end Eager

end TableQuery
