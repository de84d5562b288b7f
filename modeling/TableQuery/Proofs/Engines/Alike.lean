import TableQuery.Proofs.Engines.Conditions

/-!
# Operations on both engines

A plan stands for a table if it promises the columns that the table has, and gives it. An operation
on tables and one on plans are alike if, where the one makes a table, the other makes a plan that
stands for it, and where the one fails, so does the other: at once, or as soon as the types of its
plan are looked at. Filters, selections of columns, sorts and windows are alike.
-/

namespace TableQuery

/-- The plan promises the columns of a table, and gives it. -/
structure Plan.StandsFor (p : Plan) (t : Table) : Prop where
  schema : p.schema = .ok t.schema
  collect : p.collect = .ok t

/-- Two operations either make a table with a property and a plan that stands for it, or fail in the
same way. -/
def Alike (P : Table → Prop) (x : Except Fault Table) (y : Except Fault Plan) : Prop :=
  (∃ t p, x = .ok t ∧ y = .ok p ∧ p.StandsFor t ∧ P t) ∨
  ∃ f, x = .error f ∧ (y = .error f ∨ ∃ p, y = .ok p ∧ p.schema = .error f)

theorem Alike.mono {P Q : Table → Prop} {x : Except Fault Table} {y : Except Fault Plan}
    (h : Alike P x y) (himp : ∀ t, P t → Q t) : Alike Q x y := by
  rcases h with ⟨t, p, hx, hy, hp, ht⟩ | hfails
  · exact .inl ⟨t, p, hx, hy, hp, himp t ht⟩
  · exact .inr hfails

/-- Tables and plans that are made item by item are alike if the items are. -/
theorem Alike.of_mapM {α β γ : Type} {P : Table → Prop} {f : α → Except Fault β}
    {g : α → Except Fault γ} {r : β → γ → Prop} {items : List α} {k : List β → Table}
    {k' : List γ → Plan}
    (hitems : ∀ i ∈ items, GoAlike r (f i) (g i))
    (h : ∀ ys zs, items.mapM f = .ok ys → List.Forall₂ r ys zs →
      (k' zs).StandsFor (k ys) ∧ P (k ys)) :
    Alike P (do return k (← items.mapM f)) (do return k' (← items.mapM g)) := by
  rcases GoAlike.mapM hitems with ⟨e, hf, hg⟩ | ⟨ys, zs, hf, hg, hr⟩
  · rw [hf, hg]
    exact .inr ⟨e, rfl, .inl rfl⟩
  · have hall := h ys zs hf hr
    rw [hf, hg]
    exact .inl ⟨k ys, k' zs, rfl, rfl, hall⟩

namespace Plan.StandsFor

variable {p : Plan} {t : Table}

theorem scan (t : Table) : (Plan.scan t).StandsFor t :=
  ⟨rfl, rfl⟩

theorem names (h : p.StandsFor t) : p.names = .ok t.names := by
  rw [Plan.names, h.schema, ok_bind, Table.map_fst_schema]
  rfl

end Plan.StandsFor

/-- A table, at hand or put off, of which all is known beforehand. -/
def Relation.StandsFor (r : Relation) (t : Table) : Prop :=
  r.toPlan.StandsFor t

theorem Relation.standsFor_frame (t : Table) : (Relation.frame t).StandsFor t :=
  Plan.StandsFor.scan t

theorem Relation.StandsFor.collect {r : Relation} {t : Table} (h : r.StandsFor t) :
    r.collect = .ok t := by
  cases r with
  | frame u => exact Plan.StandsFor.collect h
  | plan p => exact Plan.StandsFor.collect h

namespace Table

/-- Basic columns of one length and with different names make a basic table. -/
theorem isBasic_of_columns {columns : List Column} {n : Nat}
    (hnodup : (columns.map Column.name).Nodup) (hbasic : ∀ c ∈ columns, c.IsBasic)
    (hlength : ∀ c ∈ columns, c.cells.length = n) :
    IsBasic ⟨columns⟩ ∧ height ⟨columns⟩ ≤ n := by
  refine ⟨⟨hnodup, fun c hc => ?_, hbasic⟩, ?_⟩
  · have hheight : height ⟨columns⟩ = n := by
      refine height_eq_of_cells hlength fun hnil => ?_
      rw [show columns = [] from hnil] at hc
      cases hc
    rw [hlength c hc, hheight]
  · cases columns with
    | nil => exact Nat.zero_le n
    | cons c columns => exact Nat.le_of_eq (hlength c List.mem_cons_self)

/-- Columns that change in the same way stay those of a basic table. -/
theorem IsBasic.map {t : Table} (ht : t.IsBasic) {f : Column → Column} {n : Nat}
    (hname : ∀ c, (f c).name = c.name) (hbasic : ∀ c ∈ t.columns, (f c).IsBasic)
    (hlength : ∀ c ∈ t.columns, (f c).cells.length = n) :
    IsBasic ⟨t.columns.map f⟩ ∧ height ⟨t.columns.map f⟩ ≤ n := by
  refine isBasic_of_columns ?_ (List.forall_mem_map.2 hbasic) (List.forall_mem_map.2 hlength)
  have hnames : (t.columns.map f).map Column.name = t.names := by
    simp [names, Function.comp_def, hname]
  rw [hnames]
  exact ht.nodup

theorem IsBasic.filter {t : Table} (ht : t.IsBasic) {mask : List Bool}
    (hmask : mask.length = t.height) :
    (t.filter mask).IsBasic ∧ (t.filter mask).height ≤ t.height := by
  let kept (c : Column) : Column :=
    { c with cells := ((c.cells.zip mask).filter Prod.snd).map Prod.fst }
  have hbasic : ∀ c ∈ t.columns, (kept c).IsBasic := by
    refine fun c hc => ⟨(ht.columns c hc).type, fun cell hcell => ?_⟩
    obtain ⟨⟨cell', b⟩, hmem, rfl⟩ := List.mem_map.1 hcell
    exact (ht.columns c hc).cells cell' (List.of_mem_zip (List.mem_of_mem_filter hmem)).1
  have hlength : ∀ c ∈ t.columns, (kept c).cells.length = (mask.filter id).length := by
    intro c hc
    have hzip : (c.cells.zip mask).map Prod.snd = mask :=
      List.map_snd_zip (Nat.le_of_eq (hmask.trans (ht.rectangular c hc).symm))
    have hsnd : ((c.cells.zip mask).filter Prod.snd).map Prod.snd = mask.filter id := by
      conv_rhs => rw [← hzip, List.filter_map]
      rfl
    rw [← hsnd, List.length_map, List.length_map]
  obtain ⟨hfilter, hheight⟩ := ht.map (f := kept) (fun _ => rfl) hbasic hlength
  refine ⟨hfilter, Nat.le_trans hheight ?_⟩
  rw [← hmask]
  exact List.length_filter_le _ _

theorem IsBasic.take {t : Table} (ht : t.IsBasic) (rows : List Nat) :
    (t.take rows).IsBasic ∧ (t.take rows).height ≤ rows.length :=
  ht.map (fun _ => rfl) (fun c hc => (ht.columns c hc).take _) fun c _ => by simp [Column.take]

theorem IsBasic.window {t : Table} (ht : t.IsBasic) (offset count : Nat) :
    (t.window offset count).IsBasic ∧ (t.window offset count).height ≤ t.height := by
  let kept (c : Column) : Column := { c with cells := (c.cells.drop offset).take count }
  have hbasic : ∀ c ∈ t.columns, (kept c).IsBasic := by
    refine fun c hc => ⟨(ht.columns c hc).type, fun cell hcell => ?_⟩
    exact (ht.columns c hc).cells cell (List.mem_of_mem_drop (List.mem_of_mem_take hcell))
  have hlength : ∀ c ∈ t.columns, (kept c).cells.length = min count (t.height - offset) := by
    intro c hc
    simp [kept, ht.rectangular c hc]
  obtain ⟨hwindow, hheight⟩ := ht.map (f := kept) (fun _ => rfl) hbasic hlength
  refine ⟨hwindow, Nat.le_trans hheight ?_⟩
  omega

end Table

/-! ## Filters -/

namespace Eager

variable {functions : Functions} {t : Table} {e : Expr}

/-- The values of a bound expression in every row. -/
theorem rowValues_of_gives {x : Bound} {g : Nat → Scalar}
    (hx : Bound.bind e t.names functions .row = .ok x) (h : x.Gives t g) :
    rowValues functions e t = .ok ((List.range t.height).map g) := by
  obtain ⟨d, hd, hheight, hholds⟩ := Loaded.exists_ofTable t x.referenced
    fun name hname => h.reads name (Bound.mem_firsts.1 hname)
  have heval : ∀ row ∈ List.range t.height,
      (do (← x.eval d (.single row)).single : Except Fault Scalar) = .ok (g row) := by
    intro row _
    rw [h.eval d (Bound.holds_mono hholds fun name => Bound.mem_firsts.2)]
    rfl
  rw [rowValues, hx, ok_bind, hd, ok_bind, Bound.evalRows, hheight]
  exact mapM_eq_ok_map heval

/-- A filter keeps the rows in which a bound condition says yes. -/
theorem filter_of_gives {x : Bound} {g : Nat → Scalar}
    (hx : Bound.bind e t.names functions .row = .ok x) (h : x.Gives t g) :
    filter functions e t = .ok (t.filter ((List.range t.height).map fun row => (g row).holds)) := by
  rw [filter, rowValues_of_gives hx h]
  simp [pure, Except.pure, Function.comp_def]

end Eager

theorem Table.schema_filter (t : Table) (mask : List Bool) : (t.filter mask).schema = t.schema := by
  simp [filter, schema, Function.comp_def]

/-- A plan keeps the rows in which the formula of a condition says yes. -/
theorem Deferred.filter_of_gives {functions : Functions} {t : Table} {e : Expr} {p : Plan}
    (hp : p.StandsFor t) {f : Formula} {type : ColumnType} {g : Nat → Scalar}
    (hf : Formula.ofExpr t.names functions .row false e = .ok f) (h : f.Gives t type g)
    (htype : type.hasTruth = true) :
    ∃ q, Deferred.filter functions e p = .ok q ∧
      q.StandsFor (t.filter ((List.range t.height).map fun row => (g row).holds)) := by
  have hlower : Formula.lower e (t.schema.map Prod.fst) functions .row = .ok f := by
    rw [Table.map_fst_schema, ← hf]
    rfl
  obtain ⟨cells, heval, hover, hcells⟩ := h.eval
  let mask := (List.range t.height).map fun row => (g row).holds
  have hkeep : t.keep t.schema (.truth f) = .ok (t.filter mask) := by
    rw [Table.keep, Formula.eval, heval]
    simp only [ok_bind, pure, Except.pure, Spread.toList_map, hcells, List.map_map]
    refine congrArg (fun m => Except.ok (t.filter m)) (List.map_congr_left fun row _ => ?_)
    simp only [Function.comp_apply, Scalar.truth?_cell, Scalar.holds]
    cases (g row).truth? <;> rfl
  refine ⟨.keep (.truth f) p, ?_, ?_, ?_⟩
  · rw [Deferred.filter, hp.schema, ok_bind, Deferred.lowered, hlower, ok_bind, Formula.condition,
      h.typed, ok_bind, if_pos htype]
    rfl
  · rw [Plan.schema, hp.schema, ok_bind, Formula.typeOver, h.typed, Table.schema_filter]
    rfl
  · rw [Plan.collect, hp.collect, ok_bind, hp.schema, ok_bind, hkeep]

/-- Filters by the same condition are alike. -/
theorem Eager.filter_alike {functions : Functions} {t : Table} {e : Expr} {p : Plan}
    (hp : p.StandsFor t) (ht : t.IsBasic) (he : e.HasType t.schema .bool) :
    Alike (fun t' => t'.IsBasic ∧ t'.height ≤ t.height ∧ t'.schema = t.schema)
      (filter functions e t) (Deferred.filter functions e p) := by
  rcases he.agrees ht functions .row false with ⟨f, hbound, hformula⟩ |
    ⟨x, f, g, hbound, hformula, hx, hf⟩
  · have hlower : Formula.lower e (t.schema.map Prod.fst) functions .row = .error f := by
      rw [Table.map_fst_schema, ← hformula]
      rfl
    refine .inr ⟨f, ?_, .inl ?_⟩
    · rw [filter, rowValues, Bound.bind, hbound]
      rfl
    · rw [Deferred.filter, hp.schema, ok_bind, Deferred.lowered, hlower]
      rfl
  · obtain ⟨q, hq, hstands⟩ := Deferred.filter_of_gives hp hformula hf rfl
    have hmask : ((List.range t.height).map fun row => (g row).holds).length = t.height := by simp
    obtain ⟨hbasic, hheight⟩ := ht.filter hmask
    exact .inl ⟨_, q, filter_of_gives hbound hx, hq, hstands, hbasic, hheight,
      Table.schema_filter t _⟩

/-! ## Selections of columns -/

/-- A selected column that is a column of the table, or is written as one that there is not. -/
def Selected.IsPlain (t : Table) : Selected → Prop
  | .column source _ => source ∈ t.names
  | .computed e _ => ∃ name, e = .column name ∧ Name.resolve? name t.names = none

/-- The types of formulas with different names. -/
theorem Schema.ofOutputs_eq {s : Schema} {outputs : List Output} {columns : List Column}
    (hnodup : (outputs.map Prod.fst).Nodup)
    (h : List.Forall₂ (fun o c => c.name = o.1 ∧ o.2.typeOver s = .ok c.type) outputs columns) :
    s.ofOutputs outputs = .ok (Table.schema ⟨columns⟩) := by
  rw [ofOutputs, Table.distinct_eq_ok.2 hnodup, ok_bind, mapM_eq_ok, Table.schema,
    List.forall₂_map_right_iff]
  refine h.imp fun o c hc => ?_
  obtain ⟨hname, htype⟩ := hc
  simp only [htype, hname]
  rfl

/-- The values of formulas with different names. -/
theorem Table.project_eq {s : Schema} {t : Table} {outputs : List Output}
    {values : List (String × Values)} (hnodup : (outputs.map Prod.fst).Nodup)
    (h : List.Forall₂ (fun o v => v.1 = o.1 ∧ o.2.eval s t none = .ok v.2) outputs values) :
    t.project s outputs = .ok ⟨values.map fun v => v.2.toColumn v.1
      (if values.all fun v => v.2.cells.isConstant then 1 else t.height)⟩ := by
  rw [project, Table.distinct_eq_ok.2 hnodup, ok_bind, bind_eq_ok]
  refine ⟨values, mapM_eq_ok.2 (h.imp fun o v hv => ?_), rfl⟩
  obtain ⟨hname, heval⟩ := hv
  simp only [heval, ← hname]
  rfl

/-- A projection stands for the columns of the values of its formulas. -/
theorem Plan.standsFor_project_of_values {p : Plan} {t : Table} (hp : p.StandsFor t)
    {columns : List Column} {outputs : List Output} (hnodup : (columns.map Column.name).Nodup)
    (cells : Column → Spread Cell)
    (h : List.Forall₂ (fun c o => c.name = o.1 ∧ o.2.typeOver t.schema = .ok c.type ∧
      o.2.eval t.schema t none = .ok ⟨c.type, cells c⟩) columns outputs)
    (hcells : ∀ c ∈ columns,
      (cells c).toList (if columns.all fun c => (cells c).isConstant then 1 else t.height) =
        c.cells) :
    (Plan.project outputs p).StandsFor ⟨columns⟩ := by
  have hnames : columns.map Column.name = outputs.map Prod.fst :=
    map_eq_map_of_forall₂ (h.flip.imp fun _ _ hc => hc.1)
  rw [hnames] at hnodup
  have hvalues : List.Forall₂ (fun o v => v.1 = o.1 ∧ o.2.eval t.schema t none = .ok v.2) outputs
      (columns.map fun c => (c.name, (⟨c.type, cells c⟩ : Values))) :=
    List.forall₂_map_right_iff.2 (h.flip.imp fun _ _ hc => ⟨hc.1, hc.2.2⟩)
  constructor
  · rw [Plan.schema, hp.schema, ok_bind,
      Schema.ofOutputs_eq hnodup (h.flip.imp fun _ _ hc => ⟨hc.1, hc.2.1⟩)]
  · rw [Plan.collect, hp.collect, ok_bind, hp.schema, ok_bind, Table.project_eq hnodup hvalues,
      List.map_map, List.all_map]
    refine congrArg (Except.ok ∘ Table.mk)
      ((List.map_congr_left fun c hc => ?_).trans (List.map_id' columns))
    exact congrArg (Column.mk c.name c.type) (hcells c hc)

/-- Formulas that name columns, as a selection of these columns. -/
theorem Plan.standsFor_project {p : Plan} {t : Table} (hp : p.StandsFor t) {columns : List Column}
    {outputs : List Output} (hnodup : (columns.map Column.name).Nodup)
    (h : List.Forall₂ (fun c o => ∃ source d, t.column source = .ok d ∧ o.2 = .column source ∧
      c = { d with name := o.1 }) columns outputs) :
    (Plan.project outputs p).StandsFor ⟨columns⟩ := by
  refine standsFor_project_of_values hp hnodup (fun c => .perRow c.cells) (h.imp fun c o hc => ?_)
    fun _ _ => rfl
  obtain ⟨source, d, hd, hf, rfl⟩ := hc
  refine ⟨rfl, ?_, ?_⟩
  · rw [hf, Formula.typeOver, Table.typeOf_of_column hd]
  · rw [hf, Table.eval_column, hd]
    rfl

/-- Selections of the same columns are alike. -/
theorem Eager.project_alike {functions : Functions} {p : Plan} {t : Table} (hp : p.StandsFor t)
    (ht : t.IsBasic) {items : List Selected} (hitems : ∀ i ∈ items, i.IsPlain t) :
    Alike (fun t' => t'.IsBasic ∧ t'.height ≤ t.height) (project functions items t)
      (Deferred.project functions items p) := by
  rw [project, Deferred.project]
  cases hdistinct : distinctOutputs (items.map Selected.label) with
  | error f => exact .inr ⟨f, rfl, .inl rfl⟩
  | ok u =>
    simp only [ok_bind, hp.schema]
    refine Alike.of_mapM (r := fun c o => ∃ source d, t.column source = .ok d ∧
      o.2 = .column source ∧ c = { d with name := o.1 }) (fun i hi => ?_) fun columns outputs hcs h => ?_
    · cases i with
      | column source label =>
        obtain ⟨d, hd⟩ := Table.exists_column_of_mem (hitems _ hi)
        refine .inr ⟨{ d with name := label }, (label, .column source), ?_, rfl, source, d, hd,
          rfl, rfl⟩
        simp only [hd]
        rfl
      | computed e label =>
        obtain ⟨name, rfl, hname⟩ := hitems _ hi
        refine .inl ⟨.noColumn name t.names, ?_, ?_⟩
        · simp [computed, rowValues, Bound.bind, Bound.ofExpr, Name.resolve, hname]
        · simp [Deferred.lowered, Formula.lower, Formula.ofExpr, Name.resolve, hname]
    · have hproject : project functions items t = .ok ⟨columns⟩ := by
        rw [project, hdistinct, ok_bind, hcs]
        rfl
      obtain ⟨hnames, hlabels⟩ := names_project hproject
      have hbasic : ∀ c ∈ columns, c.IsBasic ∧ c.cells.length = t.height := by
        intro c hc
        obtain ⟨o, -, source, d, hd, -, rfl⟩ := exists_of_mem_left h hc
        obtain ⟨hmem, -⟩ := Table.mem_of_column hd
        exact ⟨⟨(ht.columns d hmem).type, (ht.columns d hmem).cells⟩, ht.rectangular d hmem⟩
      rw [← hnames] at hlabels
      exact ⟨Plan.standsFor_project hp hlabels h, Table.isBasic_of_columns hlabels
        (fun c hc => (hbasic c hc).1) fun c hc => (hbasic c hc).2⟩

/-! ## Sorts -/

theorem length_insertBack {α : Type} (order : α → α → Ordering) (x : α) (xs : List α) :
    (insertBack order x xs).length = xs.length + 1 := by
  induction xs with
  | nil => rfl
  | cons y ys ih =>
    unfold insertBack
    split
    · rw [List.length_cons, ih, List.length_cons]
    · rfl

theorem length_stableSort {α : Type} (order : α → α → Ordering) (xs : List α) :
    (stableSort order xs).length = xs.length := by
  suffices go : ∀ done : List α, (xs.foldl (fun done x => insertBack order x done) done).length =
      done.length + xs.length by
    rw [stableSort, List.length_reverse, go, List.length_nil, Nat.zero_add]
  induction xs with
  | nil => intro done; rfl
  | cons x xs ih =>
    intro done
    rw [List.foldl_cons, ih, length_insertBack, List.length_cons]
    omega

theorem length_sortedRows {α : Type} [Inhabited α] (isMissing : α → Bool)
    (order : α → α → Ordering) (keys : List (Array α × Bool)) (n : Nat) :
    (sortedRows isMissing order keys n).length = n := by
  rw [sortedRows, length_stableSort, List.length_range]

/-- Rows are sorted alike by keys that compare alike. -/
theorem sortedRows_congr {α β : Type} [Inhabited α] [Inhabited β] {isMissing : α → Bool}
    {order : α → α → Ordering} {isMissing' : β → Bool} {order' : β → β → Ordering}
    {keys : List (Array α × Bool)} {keys' : List (Array β × Bool)}
    (h : List.Forall₂ (fun k k' => ∀ i j : Nat,
      directed isMissing order k.2 (k.1.getD i default) (k.1.getD j default) =
        directed isMissing' order' k'.2 (k'.1.getD i default) (k'.1.getD j default)) keys keys')
    (n : Nat) : sortedRows isMissing order keys n = sortedRows isMissing' order' keys' n := by
  rw [sortedRows, sortedRows]
  congr 2
  refine (map_eq_map_of_forall₂ (h.imp fun k k' hk => ?_)).symm
  funext i j
  exact (hk i j).symm

namespace Column.IsBasic

variable {c : Column}

theorem getD_scalars (c : Column) (row : Nat) :
    c.scalars.toArray.getD row default = c.value row := by
  simp [value, Array.getD_eq_getD_getElem?]
  rfl

theorem getD_cells (h : c.IsBasic) (row : Nat) :
    c.cells.toArray.getD row default = (c.value row).cell := by
  rw [← h.getElem?_cells]
  simp [Array.getD_eq_getD_getElem?]
  rfl

/-- The values of a column stand in the order of its cells. -/
theorem directed_value (h : c.IsBasic) (descending : Bool) (i j : Nat) :
    directed Scalar.isNull Scalar.sortCompare descending (c.value i) (c.value j) =
      directed Cell.isNull Cell.orderMissingLast descending (c.value i).cell (c.value j).cell := by
  have hi := h.fits_value i
  have hj := h.fits_value j
  simp only [directed, Scalar.isNull_cell, Scalar.sortCompare_of_fits hi hj,
    Scalar.sortCompare_of_fits hj hi]

end Column.IsBasic

/-- Sorts by the same columns are alike. -/
theorem Eager.sort_alike {p : Plan} {t : Table} (hp : p.StandsFor t) (ht : t.IsBasic)
    {keys : List (String × Bool)} (hkeys : ∀ k ∈ keys, k.1 ∈ t.names) :
    Alike (fun t' => t'.IsBasic ∧ t'.height ≤ t.height) (sort keys t) (.ok (.sort keys p)) := by
  have hmem : ∀ name ∈ keys.map Prod.fst, name ∈ t.names := List.forall_mem_map.2 hkeys
  obtain ⟨columnOf, hcolumn⟩ := Table.exists_columns hmem
  rw [List.forall_mem_map] at hcolumn
  have htypes : t.schema.select (keys.map Prod.fst) =
      .ok ((keys.map Prod.fst).map fun name => (name, (columnOf name).type)) := by
    refine mapM_eq_ok_map (List.forall_mem_map.2 fun k hk => ?_)
    simp only [Table.typeOf_of_column (hcolumn k hk)]
    rfl
  let rows := sortedRows Scalar.isNull Scalar.sortCompare
    (keys.map fun k => ((columnOf k.1).scalars.toArray, k.2)) t.height
  have hrows : sortedRows Cell.isNull Cell.orderMissingLast
      (keys.map fun k => ((columnOf k.1).cells.toArray, k.2)) t.height = rows := by
    refine (sortedRows_congr ?_ t.height).symm
    rw [List.forall₂_map_left_iff, List.forall₂_map_right_iff, List.forall₂_same]
    intro k hk i j
    obtain ⟨hmem, -⟩ := Table.mem_of_column (hcolumn k hk)
    have hbasic := ht.columns _ hmem
    simp only [Column.IsBasic.getD_scalars, hbasic.getD_cells, hbasic.directed_value]
  obtain ⟨hbasic, hheight⟩ := ht.take rows
  rw [length_sortedRows] at hheight
  refine .inl ⟨t.take rows, .sort keys p, ?_, rfl, ⟨?_, ?_⟩, hbasic, hheight⟩
  · rw [sort, bind_eq_ok]
    refine ⟨keys.map fun k => ((columnOf k.1).scalars.toArray, k.2), ?_, ?_⟩
    · refine mapM_eq_ok_map fun k hk => ?_
      simp only [hcolumn k hk]
      rfl
    · rfl
  · have hschema : (t.take rows).schema = t.schema := by
      simp [Table.take, Table.schema, Function.comp_def, Column.take]
    rw [Plan.schema, hp.schema, ok_bind, htypes, hschema]
    rfl
  · rw [Plan.collect, hp.collect, ok_bind, Table.sort, bind_eq_ok]
    refine ⟨keys.map fun k => ((columnOf k.1).cells.toArray, k.2), ?_, ?_⟩
    · refine mapM_eq_ok_map fun k hk => ?_
      simp only [hcolumn k hk]
      rfl
    · rw [hrows]
      rfl

/-! ## Windows -/

theorem Table.window_congr {t : Table} (ht : t.IsRectangular) {offset count offset' count' : Nat}
    (h : ∀ cells : List Cell, cells.length = t.height →
      (cells.drop offset).take count = (cells.drop offset').take count') :
    t.window offset count = t.window offset' count' := by
  rw [window, window, Table.mk.injEq]
  refine List.map_congr_left fun c hc => ?_
  rw [h c.cells (ht c hc)]

/-- To skip no more rows than there are is to skip as many as was asked for. -/
theorem Eager.window_eq {t : Table} (ht : t.IsRectangular) (offset count : UInt64) :
    window offset count t = t.window offset.toNat count.toNat := by
  refine Table.window_congr ht fun cells hcells => ?_
  have hdrop : cells.drop (min offset.toNat t.height) = cells.drop offset.toNat := by
    rw [List.drop_eq_drop_iff, hcells]
    omega
  rw [hdrop]

/-- The bounds of a plan, which counts rows with 32 bits and places with 63, cut nothing off as long
as there are no more rows. -/
theorem Table.window_bounded {t : Table} (ht : t.IsRectangular) (hheight : t.height < UInt32.size)
    (offset count : Nat) :
    t.window (min offset (UInt64.size / 2 - 1)) (min count (UInt32.size - 1)) =
      t.window offset count := by
  have hsize : UInt32.size - 1 < UInt64.size / 2 - 1 := by decide
  refine Table.window_congr ht fun cells hcells => ?_
  have hdrop : cells.drop (min offset (UInt64.size / 2 - 1)) = cells.drop offset := by
    rw [List.drop_eq_drop_iff, hcells]
    omega
  rw [hdrop, List.take_eq_take_iff, List.length_drop, hcells]
  omega

/-- The rows of a window are those of a plan, as long as there are no more than it can count. -/
theorem Eager.window_alike {p : Plan} {t : Table} (hp : p.StandsFor t) (ht : t.IsBasic)
    (hheight : t.height < UInt32.size) (offset count : UInt64) :
    Alike Table.IsBasic (.ok (window offset count t)) (.ok (Deferred.window offset count p)) := by
  obtain ⟨hbasic, -⟩ := ht.window (min offset.toNat t.height) count.toNat
  refine .inl ⟨_, _, rfl, rfl, ⟨?_, ?_⟩, hbasic⟩
  · have hschema : (window offset count t).schema = t.schema := by
      simp [window, Table.window, Table.schema, Function.comp_def]
    rw [Deferred.window, Plan.schema, hp.schema, hschema]
  · rw [Deferred.window, Plan.collect, hp.collect, ok_bind, window_eq ht.rectangular,
      Table.window_bounded ht.rectangular hheight]
    rfl

end TableQuery
