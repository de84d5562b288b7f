import TableQuery.Engine.Deferred
import TableQuery.Proofs.JoinedColumns

/-!
# What a plan promises and what it gives

The columns of the table that a plan gives have the names that the plan promises. A deferred join is
an eager one that is put off: where its table is made, it is the join of the tables of the two
plans.
-/

namespace TableQuery

namespace Table

@[simp]
theorem map_fst_schema (t : Table) : t.schema.map Prod.fst = t.names := by
  simp [schema, names]

@[simp]
theorem names_ofSchema (s : Schema) : (ofSchema s).names = s.map Prod.fst := by
  simp [ofSchema, names]

@[simp]
theorem names_take (rows : List Nat) (t : Table) : (t.take rows).names = t.names := by
  simp [take, names, Column.take]

@[simp]
theorem names_filter (mask : List Bool) (t : Table) : (t.filter mask).names = t.names := by
  simp [filter, names]

@[simp]
theorem names_window (offset count : Nat) (t : Table) :
    (t.window offset count).names = t.names := by
  simp [window, names]

theorem names_without (names : List String) (t : Table) :
    (t.without names).names = t.names.filter fun n => !names.contains n := by
  simp [without, Table.names, List.filter_map, Function.comp_def]

/-- The names of a table with a column put into it. -/
def putName (names : List String) (name : String) : List String :=
  if names.contains name then names else names ++ [name]

theorem names_put (c : Column) (t : Table) : (t.put c).names = putName t.names c.name := by
  unfold put putName
  split
  · simp only [names, List.map_map]
    refine List.map_congr_left fun d _ => ?_
    by_cases h : d.name = c.name <;> simp [h]
  · simp [names]

/-- The names of the columns of a join, by the names of the two tables. -/
def joinNames (mode : JoinMode) (on : List (String × String)) (left right : List String) :
    List String :=
  let (l, r) := match mode with
    | .right => (left.filter fun n => !(on.map Prod.fst).contains n, right)
    | _ => (left, right.filter fun n => !(on.map Prod.snd).contains n)
  l ++ r.map (freshName l)

theorem names_join {mode : JoinMode} {on : List (String × String)} {left right joined : Table}
    (h : join mode on left right = .ok joined) :
    joined.names = joinNames mode on left.names right.names := by
  unfold join at h
  cases mode <;>
  · dsimp only at h
    split at h
    · cases h
    obtain ⟨keys, -, h⟩ := bind_eq_ok.1 h
    obtain ⟨_, -, h⟩ := bind_eq_ok.1 h
    cases h
    simp only [joinNames, ← names_without]
    simp [names, rename, Column.take, Function.comp_def]

theorem names_project {s : Schema} {outputs : List Output} {t out : Table}
    (h : t.project s outputs = .ok out) : out.names = outputs.map Prod.fst := by
  obtain ⟨_, -, h⟩ := bind_eq_ok.1 h
  obtain ⟨values, hvalues, h⟩ := bind_eq_ok.1 h
  cases h
  rw [← map_of_mapM (g := Prod.fst) (k := Prod.fst) ?_ hvalues]
  · simp [names, Values.toColumn, Function.comp_def]
  · rintro ⟨name, f⟩ r hr
    obtain ⟨v, -, hr⟩ := bind_eq_ok.1 hr
    cases hr
    rfl

theorem names_foldl_put (n : Nat) (values : List (String × Values)) (t : Table) :
    (values.foldl (fun (t : Table) (name, v) => t.put (v.toColumn name n)) t).names =
      (values.map Prod.fst).foldl putName t.names := by
  induction values generalizing t with
  | nil => rfl
  | cons v values ih =>
    rw [List.foldl_cons, ih, names_put]
    rfl

theorem names_extend {s : Schema} {outputs : List Output} {t out : Table}
    (h : t.extend s outputs = .ok out) :
    out.names = (outputs.map Prod.fst).foldl putName t.names := by
  obtain ⟨_, -, h⟩ := bind_eq_ok.1 h
  obtain ⟨values, hvalues, h⟩ := bind_eq_ok.1 h
  cases h
  rw [← map_of_mapM (g := Prod.fst) (k := Prod.fst) ?_ hvalues]
  · exact names_foldl_put t.height values t
  · rintro ⟨name, f⟩ r hr
    obtain ⟨v, -, hr⟩ := bind_eq_ok.1 hr
    cases hr
    rfl

theorem names_aggregate {s : Schema} {keys : List String} {outputs : List Output} {t out : Table}
    (h : t.aggregate s keys outputs = .ok out) :
    out.names = keys ++ outputs.map Prod.fst := by
  obtain ⟨_, -, h⟩ := bind_eq_ok.1 h
  obtain ⟨keyColumns, hkeys, h⟩ := bind_eq_ok.1 h
  obtain ⟨reduced, hreduced, h⟩ := bind_eq_ok.1 h
  cases h
  have hk : keyColumns.map Column.name = keys.map id :=
    map_of_mapM (fun name c hc => column_name hc) hkeys
  have hr : reduced.map Column.name = outputs.map Prod.fst := by
    refine map_of_mapM (fun output c hc => ?_) hreduced
    obtain ⟨v, -, hc⟩ := bind_eq_ok.1 hc
    split at hc
    · cases hc
    · cases hc
      rfl
  rw [List.map_id] at hk
  simp [names, Column.take, Function.comp_def, ← hk, ← hr]

end Table

namespace Schema

theorem map_fst_ofOutputs {s s' : Schema} {outputs : List Output}
    (h : s.ofOutputs outputs = .ok s') : s'.map Prod.fst = outputs.map Prod.fst := by
  obtain ⟨_, -, h⟩ := bind_eq_ok.1 h
  refine map_of_mapM ?_ h
  rintro ⟨name, f⟩ r hr
  obtain ⟨type, -, hr⟩ := bind_eq_ok.1 hr
  cases hr
  rfl

theorem map_fst_select {s s' : Schema} {names : List String} (h : s.select names = .ok s') :
    s'.map Prod.fst = names := by
  have := map_of_mapM (g := Prod.fst) (k := id) ?_ h
  · rwa [List.map_id] at this
  · intro name r hr
    obtain ⟨type, -, hr⟩ := bind_eq_ok.1 hr
    cases hr
    rfl

theorem exists_typeOf {s : Schema} {name : String} (h : name ∈ s.map Prod.fst) :
    ∃ type, s.typeOf name = .ok type := by
  unfold Schema.typeOf
  cases hl : s.lookup name with
  | some type => exact ⟨type, rfl⟩
  | none =>
    obtain ⟨c, hc, rfl⟩ := List.mem_map.1 h
    have := List.lookup_eq_none_iff.1 hl c hc
    simp at this

theorem map_fst_put (s : Schema) (c : String × ColumnType) :
    (s.put c).map Prod.fst = Table.putName (s.map Prod.fst) c.1 := by
  unfold Schema.put Table.putName
  split
  · simp only [List.map_map]
    refine List.map_congr_left fun d _ => ?_
    by_cases h : d.1 = c.1 <;> simp [h]
  · simp

theorem map_fst_foldl_put (s added : Schema) :
    (added.foldl Schema.put s).map Prod.fst =
      (added.map Prod.fst).foldl Table.putName (s.map Prod.fst) := by
  induction added generalizing s with
  | nil => rfl
  | cons c added ih => rw [List.foldl_cons, ih, map_fst_put, List.map_cons, List.foldl_cons]

end Schema

namespace Plan

/-- The columns of the table have the names that the plan promises. -/
theorem names_of_collect {p : Plan} {s : Schema} {t : Table} (hs : p.schema = .ok s)
    (ht : p.collect = .ok t) : t.names = s.map Prod.fst := by
  induction p generalizing s t with
  | scan t' =>
    cases hs
    cases ht
    simp
  | project outputs p ih =>
    obtain ⟨s', hs', hs⟩ := bind_eq_ok.1 hs
    obtain ⟨t', ht', ht⟩ := bind_eq_ok.1 ht
    obtain ⟨s'', -, ht⟩ := bind_eq_ok.1 ht
    rw [Table.names_project ht, Schema.map_fst_ofOutputs hs]
  | extend outputs p ih =>
    obtain ⟨s', hs', hs⟩ := bind_eq_ok.1 hs
    obtain ⟨added, hadded, hs⟩ := bind_eq_ok.1 hs
    cases hs
    obtain ⟨t', ht', ht⟩ := bind_eq_ok.1 ht
    obtain ⟨s'', -, ht⟩ := bind_eq_ok.1 ht
    rw [Table.names_extend ht, Schema.map_fst_foldl_put, Schema.map_fst_ofOutputs hadded,
      ih hs' ht']
  | keep mask p ih =>
    obtain ⟨s', hs', hs⟩ := bind_eq_ok.1 hs
    obtain ⟨_, -, hs⟩ := bind_eq_ok.1 hs
    cases hs
    obtain ⟨t', ht', ht⟩ := bind_eq_ok.1 ht
    obtain ⟨s'', -, ht⟩ := bind_eq_ok.1 ht
    obtain ⟨v, -, ht⟩ := bind_eq_ok.1 ht
    cases ht
    rw [Table.names_filter, ih hs' ht']
  | join mode on l r ihl ihr =>
    obtain ⟨sl, hsl, hs⟩ := bind_eq_ok.1 hs
    obtain ⟨sr, hsr, hs⟩ := bind_eq_ok.1 hs
    obtain ⟨shape, hshape, hs⟩ := bind_eq_ok.1 hs
    cases hs
    obtain ⟨tl, htl, ht⟩ := bind_eq_ok.1 ht
    obtain ⟨tr, htr, ht⟩ := bind_eq_ok.1 ht
    rw [Table.map_fst_schema, Table.names_join ht, Table.names_join hshape, ihl hsl htl,
      ihr hsr htr, Table.names_ofSchema, Table.names_ofSchema]
  | aggregate keys outputs p ih =>
    obtain ⟨s', hs', hs⟩ := bind_eq_ok.1 hs
    obtain ⟨_, -, hs⟩ := bind_eq_ok.1 hs
    obtain ⟨selected, hselected, hs⟩ := bind_eq_ok.1 hs
    obtain ⟨made, hmade, hs⟩ := bind_eq_ok.1 hs
    cases hs
    obtain ⟨t', ht', ht⟩ := bind_eq_ok.1 ht
    obtain ⟨s'', -, ht⟩ := bind_eq_ok.1 ht
    rw [Table.names_aggregate ht, List.map_append, Schema.map_fst_select hselected,
      Schema.map_fst_ofOutputs hmade]
  | sort keys p ih =>
    obtain ⟨s', hs', hs⟩ := bind_eq_ok.1 hs
    obtain ⟨_, -, hs⟩ := bind_eq_ok.1 hs
    cases hs
    obtain ⟨t', ht', ht⟩ := bind_eq_ok.1 ht
    obtain ⟨values, -, ht⟩ := bind_eq_ok.1 ht
    cases ht
    rw [Table.names_take, ih hs' ht']
  | window offset count p ih =>
    obtain ⟨t', ht', ht⟩ := bind_eq_ok.1 ht
    cases ht
    rw [Table.names_window, ih hs ht']
  | rename names p ih =>
    obtain ⟨s', hs', hs⟩ := bind_eq_ok.1 hs
    cases hs
    obtain ⟨t', ht', ht⟩ := bind_eq_ok.1 ht
    cases ht
    rw [Table.names_rename, ih hs' ht']
    simp [Function.comp_def]

end Plan

namespace Relation

/-- The columns of a table have the names that were shown before it was made. -/
theorem names_of_collect {r : Relation} {names : List String} {t : Table}
    (hnames : r.names = .ok names) (ht : r.collect = .ok t) : t.names = names := by
  cases r with
  | frame t' =>
    cases hnames
    cases ht
    rfl
  | plan p =>
    obtain ⟨s, hs, hnames⟩ := bind_eq_ok.1 hnames
    cases hnames
    exact Plan.names_of_collect hs ht

@[simp]
theorem names_plan_toPlan (r : Relation) : (plan r.toPlan).names = r.names := by
  cases r with
  | frame t => simp [toPlan, names, Plan.names, Plan.schema, pure, Except.pure]
  | plan p => rfl

/-- A table with columns has a schema. -/
theorem exists_schema {r : Relation} {names : List String} (h : r.names = .ok names) :
    ∃ s, r.toPlan.schema = .ok s ∧ s.map Prod.fst = names := by
  rw [← r.names_plan_toPlan] at h
  obtain ⟨s, hs, h⟩ := bind_eq_ok.1 h
  exact ⟨s, hs, Except.ok.inj h⟩

@[simp]
theorem collect_toPlan (r : Relation) : r.toPlan.collect = r.collect := by
  cases r <;> rfl

end Relation

/-! ## Joins that are put off -/

namespace Table

theorem eval_column (s : Schema) (t : Table) (groups : Option (List (List Nat)))
    (name : String) :
    (Formula.column name).eval s t groups =
      (t.column name).map fun c => ⟨c.type, .perRow c.cells⟩ := by
  cases h : t.column name <;> simp only [Formula.eval, h] <;> rfl

/-- A column under a further name. -/
theorem extend_column (s : Schema) (t : Table) (source name : String) :
    t.extend s [(name, .column source)] =
      do return t.put { ← t.column source with name := name } := by
  simp only [extend, List.map_cons, List.map_nil, List.mapM_cons, List.mapM_nil, eval_column]
  cases h : t.column source with
  | error f => rfl
  | ok c => rfl

theorem map_fst_copies (names : List String) : (Deferred.copies names).map Prod.fst = names := by
  simp [Deferred.copies, Function.comp_def]

theorem mapM_copies (s : Schema) (t : Table) (names : List String) :
    ((Deferred.copies names).mapM fun (name, f) => do return (name, ← f.eval s t none)) =
      (names.mapM t.column).map fun columns =>
        columns.map fun c => (c.name, (⟨c.type, .perRow c.cells⟩ : Values)) := by
  unfold Deferred.copies
  induction names with
  | nil => rfl
  | cons name names ih =>
    rw [List.map_cons, List.mapM_cons, ih, List.mapM_cons]
    simp only [eval_column]
    cases hc : t.column name with
    | error f => rfl
    | ok c =>
      obtain rfl := column_name hc
      cases names.mapM t.column <;> rfl

/-- Outputs that copy columns are a selection of pairwise different names. -/
theorem project_copies (s : Schema) (t : Table) (names : List String) :
    t.project s (Deferred.copies names) = distinct names >>= fun _ => t.select names := by
  simp only [project, map_fst_copies, mapM_copies, select]
  cases names.mapM t.column with
  | error f => rfl
  | ok columns =>
    simp only [map_ok, ok_bind, List.map_map]
    congr 1
    funext _
    simp [Function.comp_def, Values.toColumn, Spread.toList]

end Table

namespace Plan

variable {p : Plan} {s : Schema}

/-- A copied column is promised with the type of its source. -/
theorem schema_extend_column (hs : p.schema = .ok s) (source name : String) :
    (extend [(name, .column source)] p).schema = do return s.put (name, ← s.typeOf source) := by
  rw [schema, hs, ok_bind, Schema.ofOutputs]
  simp only [List.map_cons, List.map_nil, Table.distinct, List.contains_nil, List.mapM_cons,
    List.mapM_nil, Formula.typeOver]
  cases s.typeOf source <;> rfl

theorem collect_extend_column {t : Table} (hs : p.schema = .ok s) (ht : p.collect = .ok t)
    (source name : String) :
    (extend [(name, .column source)] p).collect =
      do return t.put { ← t.column source with name := name } := by
  rw [collect, ht, ok_bind, hs, ok_bind]
  exact Table.extend_column s t source name

end Plan

theorem Eager.withKeys_cons (source name : String) (columns : List (String × String)) (t : Table) :
    withKeys ((source, name) :: columns) t =
      t.column source >>= fun c => withKeys columns (t.put { c with name := name }) := by
  simp only [withKeys, List.foldlM_cons, bind_assoc, pure_bind]

namespace Deferred

/-- Where a plan fails, so does the plan with key columns. -/
theorem collect_withKeys_error {columns : List (String × String)} {p : Plan} {f : Fault}
    (h : p.collect = .error f) : (withKeys columns p).collect = .error f := by
  induction columns generalizing p with
  | nil => exact h
  | cons c columns ih =>
    refine ih ?_
    simp only [Plan.collect, h]
    rfl

/-- Putting key columns behind the others can be put off. -/
theorem collect_withKeys {columns : List (String × String)} {p : Plan} {s : Schema} {t : Table}
    (hs : p.schema = .ok s) (ht : p.collect = .ok t) :
    (withKeys columns p).collect = Eager.withKeys columns t := by
  induction columns generalizing p s t with
  | nil => exact ht
  | cons c columns ih =>
    obtain ⟨source, name⟩ := c
    have hschema := Plan.schema_extend_column hs source name
    have hcollect := Plan.collect_extend_column hs ht source name
    rw [Eager.withKeys_cons]
    cases hc : t.column source with
    | error f =>
      rw [hc] at hcollect
      exact collect_withKeys_error (p := .extend _ p) hcollect
    | ok d =>
      rw [hc] at hcollect
      have hmem : source ∈ s.map Prod.fst := by
        rw [← Plan.names_of_collect hs ht]
        exact List.mem_map.2 ⟨d, Table.mem_of_column hc⟩
      obtain ⟨type, htype⟩ := Schema.exists_typeOf hmem
      rw [htype] at hschema
      exact ih hschema hcollect

section

variable {p : JoinPlan} {left right plan : Plan}

/-- The plans behind a join that is put off give the tables with their keys, joined. -/
theorem collect_join_withKeys {sl sr : Schema} {l r : Table} (hsl : left.schema = .ok sl)
    (hsr : right.schema = .ok sr) (hl : left.collect = .ok l) (hr : right.collect = .ok r)
    (renames : List (String × String)) :
    (Plan.join p.mode p.copiedKeys (withKeys p.leftCopies left)
      (withKeys (p.rightCopies renames) (.rename renames right))).collect =
      (do
        Table.join p.mode p.copiedKeys (← Eager.withKeys p.leftCopies l)
          (← Eager.withKeys (p.rightCopies renames) (r.rename (JoinPlan.newName renames)))) := by
  have hrename : (Plan.rename renames right).collect =
      .ok (r.rename (JoinPlan.newName renames)) := by
    simp [Plan.collect, hr, pure, Except.pure]
  have hschema : (Plan.rename renames right).schema =
      .ok (sr.map fun c => (JoinPlan.newName renames c.1, c.2)) := by
    simp [Plan.schema, hsr, pure, Except.pure]
  rw [Plan.collect, collect_withKeys hsl hl, collect_withKeys hschema hrename]

/-- Where the plan behind a join gives a table, so do the plans of both sides. -/
theorem collect_of_collect_join {mode : JoinMode} {on columns columns' : List (String × String)}
    {renames : List (String × String)} {t : Table}
    (h : (Plan.join mode on (withKeys columns left)
      (withKeys columns' (.rename renames right))).collect = .ok t) :
    ∃ l r, left.collect = .ok l ∧ right.collect = .ok r := by
  obtain ⟨a, ha, h⟩ := bind_eq_ok.1 h
  obtain ⟨b, hb, -⟩ := bind_eq_ok.1 h
  cases hl : left.collect with
  | error f =>
    rw [collect_withKeys_error hl] at ha
    cases ha
  | ok l =>
    cases hr : right.collect with
    | error f =>
      have hrename : (Plan.rename renames right).collect = .error f := by
        simp [Plan.collect, hr]
      rw [collect_withKeys_error hrename] at hb
      cases hb
    | ok r => exact ⟨l, r, rfl, rfl⟩

/-- The plan of a join that is put off: the columns of both sides, selected from a join by helpers.
-/
theorem eq_of_join (h : join p left right = .ok plan) :
    ∃ sl sr renames, left.schema = .ok sl ∧ right.schema = .ok sr ∧
      p.renamedRight (sl.map Prod.fst) (sr.map Prod.fst) = .ok renames ∧
      plan = .project (copies (sl.map Prod.fst ++ renames.map Prod.snd))
        (.join p.mode p.copiedKeys (withKeys p.leftCopies left)
          (withKeys (p.rightCopies renames) (.rename renames right))) := by
  obtain ⟨names, hnames, h⟩ := bind_eq_ok.1 h
  obtain ⟨names', hnames', h⟩ := bind_eq_ok.1 h
  obtain ⟨renames, hrenames, h⟩ := bind_eq_ok.1 h
  cases h
  obtain ⟨sl, hsl, hnames⟩ := bind_eq_ok.1 hnames
  cases hnames
  obtain ⟨sr, hsr, hnames'⟩ := bind_eq_ok.1 hnames'
  cases hnames'
  exact ⟨sl, sr, renames, hsl, hsr, hrenames, rfl⟩

/-- A join that is put off is the join of the tables that its plans give. -/
theorem collect_join {t : Table} (h : join p left right = .ok plan) (ht : plan.collect = .ok t) :
    ∃ l r, left.collect = .ok l ∧ right.collect = .ok r ∧ Eager.join p l r = .ok t := by
  obtain ⟨sl, sr, renames, hsl, hsr, hrenames, rfl⟩ := eq_of_join h
  obtain ⟨joined, hjoined, ht⟩ := bind_eq_ok.1 ht
  obtain ⟨s, -, ht⟩ := bind_eq_ok.1 ht
  rw [Table.project_copies] at ht
  obtain ⟨_, -, ht⟩ := bind_eq_ok.1 ht
  obtain ⟨l, r, hl, hr⟩ := collect_of_collect_join hjoined
  rw [collect_join_withKeys hsl hsr hl hr] at hjoined
  obtain ⟨a, ha, hjoined⟩ := bind_eq_ok.1 hjoined
  obtain ⟨b, hb, hjoined⟩ := bind_eq_ok.1 hjoined
  rw [← Plan.names_of_collect hsl hl] at hrenames ht
  rw [← Plan.names_of_collect hsr hr] at hrenames
  exact ⟨l, r, hl, hr, bind_eq_ok.2 ⟨renames, hrenames, bind_eq_ok.2 ⟨a, ha,
    bind_eq_ok.2 ⟨b, hb, bind_eq_ok.2 ⟨joined, hjoined, ht⟩⟩⟩⟩⟩

/-- A join that is put off and promises columns gives what the tables of its plans are joined to. -/
theorem collect_join_iff {s : Schema} {t : Table} (h : join p left right = .ok plan)
    (hs : plan.schema = .ok s) : plan.collect = .ok t ↔
      ∃ l r, left.collect = .ok l ∧ right.collect = .ok r ∧ Eager.join p l r = .ok t := by
  refine ⟨collect_join h, ?_⟩
  rintro ⟨l, r, hl, hr, ht⟩
  obtain ⟨sl, sr, renames, hsl, hsr, hrenames, rfl⟩ := eq_of_join h
  obtain ⟨promised, hpromised, hs⟩ := bind_eq_ok.1 hs
  obtain ⟨_, hdistinct, -⟩ := bind_eq_ok.1 hs
  rw [Table.map_fst_copies] at hdistinct
  obtain ⟨renames', hrenames', ht⟩ := bind_eq_ok.1 ht
  rw [Plan.names_of_collect hsl hl, Plan.names_of_collect hsr hr, hrenames] at hrenames'
  obtain rfl := Except.ok.inj hrenames'
  obtain ⟨a, ha, ht⟩ := bind_eq_ok.1 ht
  obtain ⟨b, hb, ht⟩ := bind_eq_ok.1 ht
  obtain ⟨joined, hjoined, ht⟩ := bind_eq_ok.1 ht
  rw [Plan.names_of_collect hsl hl] at ht
  refine bind_eq_ok.2 ⟨joined, ?_, bind_eq_ok.2 ⟨promised, hpromised, ?_⟩⟩
  · rw [collect_join_withKeys hsl hsr hl hr]
    exact bind_eq_ok.2 ⟨a, ha, bind_eq_ok.2 ⟨b, hb, hjoined⟩⟩
  · rw [Table.project_copies]
    exact bind_eq_ok.2 ⟨_, hdistinct, ht⟩

end

end Deferred

end TableQuery
