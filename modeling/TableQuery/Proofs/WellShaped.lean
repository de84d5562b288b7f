import TableQuery.Proofs.HelperColumns
import TableQuery.Proofs.RollUps

/-!
# The shape of tables

A table has the right shape if its columns have pairwise different names and equally many cells.
What the operations on tables make of tables of the right shape has the right shape again: columns
that are put in take the place of those of their names or get a cell for every row, rows are chosen
alike in all columns, groups give one cell to each column, and a join looks for names that occur
twice. So both engines keep the shape, whether they work on a table or put it off.
-/

namespace TableQuery

/-! ## Values that have a part for every group -/

namespace Spread

variable {α β : Type} {n : Nat}

/-- A value over `n` groups: if it has parts for the groups, then one for each of them. -/
def IsOverGroups (n : Nat) : Spread α → Prop
  | .perGroup xs => xs.length = n
  | _ => True

theorem IsOverGroups.map {a : Spread α} (ha : a.IsOverGroups n) (f : α → β) :
    (a.map f).IsOverGroups n := by
  cases a with
  | perGroup xs => exact (List.length_map f).trans ha
  | constant | perRow => trivial

theorem IsOverGroups.pair {a : Spread α} {b : Spread β} {c : Spread (α × β)}
    (ha : a.IsOverGroups n) (hb : b.IsOverGroups n) (h : a.pair b = .ok c) : c.IsOverGroups n := by
  cases a <;> cases b <;> cases h <;> simp_all [IsOverGroups]

theorem isCarried_isOverGroups (n : Nat) : IsCarried fun _ a => a.IsOverGroups n :=
  ⟨IsOverGroups.map, IsOverGroups.pair⟩

end Spread

theorem Values.isOverGroups_aggregate {a : Aggregate} {gs : List (List Nat)} {v w : Values}
    (hv : v.cells.IsOverGroups gs.length) (h : v.aggregate a (some gs) = .ok w) :
    w.cells.IsOverGroups gs.length := by
  obtain ⟨type, cells⟩ := v
  obtain ⟨result, -, h⟩ := bind_eq_ok.1 h
  cases cells with
  | perGroup cs =>
    cases h
    exact (List.length_map _).trans hv
  | constant c | perRow cs =>
    cases h
    exact List.length_map _

/-- Over a table whose rows are grouped, a formula has a cell for each group if it has cells for
groups. -/
theorem Formula.isOverGroups_eval {s : Schema} {t : Table} {gs : List (List Nat)} {f : Formula}
    {v : Values} (h : f.eval s t (some gs) = .ok v) : v.cells.IsOverGroups gs.length := by
  refine eval_carried (Spread.isCarried_isOverGroups gs.length) (fun _ => trivial)
    (fun _ _ => trivial) ?_ Values.isOverGroups_aggregate (fun _ => trivial) h
  exact List.length_map _

/-! ## Operations on tables -/

namespace Table

/-- Pairwise different names, and equally many cells in all columns. -/
structure WellShaped (t : Table) : Prop where
  nodup : t.names.Nodup
  rectangular : t.IsRectangular

variable {t out : Table}

theorem isRectangular_of_nil (h : t.columns = []) : t.IsRectangular := by
  intro c hc
  rw [h] at hc
  cases hc

theorem isRectangular_of_cells {n : Nat} (h : ∀ c ∈ t.columns, c.cells.length = n) :
    t.IsRectangular := by
  by_cases hnil : t.columns = []
  · exact isRectangular_of_nil hnil
  · exact (isRectangular_of_length hnil h).1

theorem nodup_putName {names : List String} (h : names.Nodup) (name : String) :
    (putName names name).Nodup := by
  unfold putName
  split
  · exact h
  · next hname =>
    refine List.nodup_append.2 ⟨h, List.nodup_singleton name, fun a ha b hb => ?_⟩
    rw [List.mem_singleton.1 hb]
    rintro rfl
    exact hname (List.contains_iff_mem.2 ha)

/-- How many elements a mask keeps shows in the mask. -/
theorem length_filter_zip {α : Type} (xs : List α) (mask : List Bool) :
    ((xs.zip mask).filter Prod.snd).length = ((mask.take xs.length).filter id).length := by
  induction xs generalizing mask with
  | nil => rfl
  | cons x xs ih =>
    cases mask with
    | nil => rfl
    | cons b mask => cases b <;> simp [ih]

namespace WellShaped

theorem put (ht : t.WellShaped) {c : Column} (hc : c.cells.length = t.height) :
    (t.put c).WellShaped := by
  refine ⟨?_, (isRectangular_put ht.rectangular hc).1⟩
  rw [names_put]
  exact nodup_putName ht.nodup c.name

/-- A choice of rows that goes by their places keeps the shape. -/
theorem choose (ht : t.WellShaped) {rows : Column → Column} (hname : ∀ c, (rows c).name = c.name)
    {n : Nat} (hlength : ∀ c, c.cells.length = t.height → (rows c).cells.length = n) :
    Table.WellShaped ⟨t.columns.map rows⟩ := by
  refine ⟨?_, isRectangular_of_cells (n := n) fun d hd => ?_⟩
  · simpa [names, Function.comp_def, hname] using ht.nodup
  · obtain ⟨c, hc, rfl⟩ := List.mem_map.1 hd
    exact hlength c (ht.rectangular c hc)

theorem take (ht : t.WellShaped) (rows : List Nat) : (t.take rows).WellShaped :=
  ht.choose (fun _ => rfl) (n := rows.length) fun c _ => by simp [Column.take]

theorem filter (ht : t.WellShaped) (mask : List Bool) : (t.filter mask).WellShaped := by
  refine ht.choose (fun _ => rfl) (n := ((mask.take t.height).filter id).length) fun c hc => ?_
  rw [← hc, List.length_map, length_filter_zip]

theorem window (ht : t.WellShaped) (offset count : Nat) : (t.window offset count).WellShaped :=
  ht.choose (fun _ => rfl) (n := min count (t.height - offset)) fun c hc => by simp [hc]

end WellShaped

/-- A selection by pairwise different names has the shape of the table. -/
theorem wellShaped_of_select (ht : t.IsRectangular) {names : List String} (hnames : names.Nodup)
    (h : t.select names = .ok out) : out.WellShaped := by
  have hcolumns := select_eq_ok h
  refine ⟨?_, isRectangular_of_cells (n := t.height) fun c hc => ?_⟩
  · rw [Table.names, map_name_of_columns hcolumns]
    exact hnames
  · obtain ⟨name, -, hname⟩ := exists_of_mem_right hcolumns hc
    exact ht c (mem_of_column hname).1

/-- A join gives every column a cell for each pair of rows, and fails if two columns would have one
name. -/
theorem wellShaped_of_join {mode : JoinMode} {on : List (String × String)} {left right : Table}
    (h : join mode on left right = .ok out) : out.WellShaped := by
  obtain ⟨keys, -, hnodup, hcolumns⟩ := join_eq_ok h
  exact ⟨hnodup, isRectangular_of_cells fun d hd => length_cells_of_mem_paired (hcolumns ▸ hd)⟩

theorem wellShaped_of_project (ht : t.WellShaped) {s : Schema} {outputs : List Output}
    (h : t.project s outputs = .ok out) : out.WellShaped := by
  have hnames := names_project h
  obtain ⟨_, hdistinct, -⟩ := bind_eq_ok.1 h
  have hnodup : out.names.Nodup := hnames ▸ distinct_eq_ok.1 hdistinct
  by_cases houtputs : outputs = []
  · subst houtputs
    exact ⟨hnodup, isRectangular_of_nil (List.map_eq_nil_iff.1 hnames)⟩
  · exact ⟨hnodup, (height_project ht.rectangular houtputs h).1⟩

/-- Columns that are put in one after the other have a cell for every row. -/
theorem WellShaped.foldl_put (ht : t.WellShaped) {n : Nat} (hn : t.height = n)
    {values : List (String × Values)} (h : ∀ v ∈ values, (v.2.cells.toList n).length = n) :
    (values.foldl (fun (t : Table) (name, v) => t.put (v.toColumn name n)) t).WellShaped := by
  induction values generalizing t with
  | nil => exact ht
  | cons v values ih =>
    obtain ⟨hv, hvalues⟩ := List.forall_mem_cons.1 h
    have hcells : (v.2.toColumn v.1 n).cells.length = t.height := hv.trans hn.symm
    exact ih (ht.put hcells) ((isRectangular_put ht.rectangular hcells).2.trans hn) hvalues

theorem wellShaped_of_extend (ht : t.WellShaped) {s : Schema} {outputs : List Output}
    (h : t.extend s outputs = .ok out) : out.WellShaped := by
  obtain ⟨_, -, h⟩ := bind_eq_ok.1 h
  obtain ⟨values, hvalues, h⟩ := bind_eq_ok.1 h
  cases h
  refine ht.foldl_put rfl fun v hv => ?_
  obtain ⟨o, -, ho⟩ := (mem_iff_of_mapM hvalues).1 hv
  obtain ⟨w, hw, ho⟩ := bind_eq_ok.1 ho
  cases ho
  exact ((Formula.spans_eval ht.rectangular hw).length_toList t.height).trans (ite_self _)

/-- What is computed for the groups has one cell for each of them. -/
theorem length_cells_of_evalGroups {s : Schema} {gs : List (List Nat)} {o : Output} {c : Column}
    (h : evalGroups s gs t o = .ok c) : c.cells.length = gs.length := by
  obtain ⟨v, hv, h⟩ := bind_eq_ok.1 h
  have hover := Formula.isOverGroups_eval hv
  obtain ⟨type, cells⟩ := v
  cases cells with
  | perRow xs => cases h
  | constant x =>
    cases h
    exact List.length_replicate
  | perGroup xs =>
    cases h
    exact hover

theorem wellShaped_of_aggregate {s : Schema} {keys : List String} {outputs : List Output}
    (h : t.aggregate s keys outputs = .ok out) : out.WellShaped := by
  have hnames := names_aggregate h
  obtain ⟨_, hdistinct, h⟩ := bind_eq_ok.1 h
  have hnodup : out.names.Nodup := hnames ▸ distinct_eq_ok.1 hdistinct
  obtain ⟨keyColumns, -, h⟩ := bind_eq_ok.1 h
  obtain ⟨reduced, hreduced, h⟩ := bind_eq_ok.1 h
  generalize groupRows sameKeys _ t.height = groups at hreduced h
  cases h
  refine ⟨hnodup, isRectangular_of_cells (n := groups.length) fun d hd => ?_⟩
  rcases List.mem_append.1 hd with hd | hd
  · obtain ⟨c, -, rfl⟩ := List.mem_map.1 hd
    simp [Column.take]
  · obtain ⟨o, -, ho⟩ := (mem_iff_of_mapM hreduced).1 hd
    rw [length_cells_of_evalGroups ho, List.length_map]

end Table

/-! ## Operations of the eager engine -/

namespace Eager

variable {fs : Functions} {t out : Table}

theorem wellShaped_extend (ht : t.WellShaped) {items : List (String × Expr)}
    (h : extend fs items t = .ok out) : out.WellShaped := by
  induction items generalizing t with
  | nil =>
    cases h
    exact ht
  | cons i items ih =>
    obtain ⟨u, hu, h⟩ := bind_eq_ok.1 h
    obtain ⟨c, hc, hu⟩ := bind_eq_ok.1 hu
    cases hu
    exact ih (ht.put (length_cells_computed hc)) h

theorem wellShaped_project (ht : t.WellShaped) {items : List Selected}
    (h : project fs items t = .ok out) : out.WellShaped := by
  obtain ⟨hnames, hnodup⟩ := names_project h
  rw [← hnames] at hnodup
  by_cases hitems : items = []
  · subst hitems
    exact ⟨hnodup, Table.isRectangular_of_nil (List.map_eq_nil_iff.1 hnames)⟩
  · exact ⟨hnodup, (height_project ht.rectangular hitems h).1⟩

/-- Groups give one cell to each column, unless there are no keys and an item asks for one. -/
theorem wellShaped_aggregate {keys : List String} {items : List Reduced}
    (hitems : keys = [] → ∀ i ∈ items, i.isAggregate) (h : aggregate fs keys items t = .ok out) :
    out.WellShaped := by
  obtain ⟨hnames, hnodup⟩ := names_aggregate h
  rw [← hnames] at hnodup
  obtain ⟨gs, hgs, hcolumns⟩ := columns_of_aggregate h
  have hreduced := columns_of_hasFirst hcolumns (hasFirst_of_groups hgs hitems)
  refine ⟨hnodup, Table.isRectangular_of_cells (n := gs.length) fun c hc => ?_⟩
  obtain ⟨i, -, hi⟩ := exists_of_mem_right hreduced hc
  exact hi.length_cells

theorem wellShaped_filter (ht : t.WellShaped) {e : Expr} (h : filter fs e t = .ok out) :
    out.WellShaped := by
  obtain ⟨mask, -, h⟩ := bind_eq_ok.1 h
  cases h
  exact ht.filter _

/-- The columns of the joined table get names that neither of the two tables has, so none occurs
twice; the helper columns give all columns the rows of the join, and are dropped again. -/
theorem wellShaped_join {p : JoinPlan} {left right : Table} (hleft : left.WellShaped)
    (hright : right.WellShaped) (h : join p left right = .ok out) : out.WellShaped := by
  obtain ⟨renames, hrenames, h⟩ := bind_eq_ok.1 h
  obtain ⟨l, -, h⟩ := bind_eq_ok.1 h
  obtain ⟨r, -, h⟩ := bind_eq_ok.1 h
  obtain ⟨joined, hjoined, hselect⟩ := bind_eq_ok.1 h
  refine Table.wellShaped_of_select (Table.wellShaped_of_join hjoined).rectangular ?_ hselect
  obtain ⟨hpairs, hnew⟩ := JoinPlan.renamedRight_eq_ok hrenames
  have hnewNames : renames.map Prod.snd = right.names.map (JoinPlan.newName renames) := by
    conv_lhs => rw [hpairs]
    simp
  rw [hnewNames]
  refine List.nodup_append.2 ⟨hleft.nodup, JoinPlan.nodup_newNames hrenames hright.nodup,
    fun a ha b hb => ?_⟩
  obtain ⟨c, hc, rfl⟩ := List.mem_map.1 hb
  rintro rfl
  exact (JoinPlan.renamed_eq_ok (hnew c hc)).1 ha

theorem wellShaped_sort (ht : t.WellShaped) {keys : List (String × Bool)}
    (h : sort keys t = .ok out) : out.WellShaped := by
  obtain ⟨rows, -, rfl⟩ := exists_perm_of_sort h
  exact ht.take rows

end Eager

/-! ## Plans -/

namespace Relation

/-- The table has the right shape whenever it can be made. -/
def WellShaped (r : Relation) : Prop :=
  ∀ t, r.collect = .ok t → t.WellShaped

end Relation

namespace Plan

/-- The table of a plan has the right shape whenever it can be made. -/
abbrev WellShaped (p : Plan) : Prop :=
  (Relation.plan p).WellShaped

variable {p : Plan}

namespace WellShaped

theorem project (hp : p.WellShaped) (outputs : List Output) :
    (Plan.project outputs p).WellShaped := by
  intro u hu
  obtain ⟨t, ht, hu⟩ := bind_eq_ok.1 hu
  obtain ⟨s, -, hu⟩ := bind_eq_ok.1 hu
  exact Table.wellShaped_of_project (hp t ht) hu

theorem extend (hp : p.WellShaped) (outputs : List Output) :
    (Plan.extend outputs p).WellShaped := by
  intro u hu
  obtain ⟨t, ht, hu⟩ := bind_eq_ok.1 hu
  obtain ⟨s, -, hu⟩ := bind_eq_ok.1 hu
  exact Table.wellShaped_of_extend (hp t ht) hu

theorem keep (hp : p.WellShaped) (mask : Formula) : (Plan.keep mask p).WellShaped := by
  intro u hu
  obtain ⟨t, ht, hu⟩ := bind_eq_ok.1 hu
  obtain ⟨s, -, hu⟩ := bind_eq_ok.1 hu
  obtain ⟨v, -, hu⟩ := bind_eq_ok.1 hu
  cases hu
  exact (hp t ht).filter _

theorem sort (hp : p.WellShaped) (keys : List (String × Bool)) : (Plan.sort keys p).WellShaped := by
  intro u hu
  obtain ⟨t, ht, hu⟩ := bind_eq_ok.1 hu
  obtain ⟨values, -, hu⟩ := bind_eq_ok.1 hu
  cases hu
  exact (hp t ht).take _

theorem window (hp : p.WellShaped) (offset count : Nat) :
    (Plan.window offset count p).WellShaped := by
  intro u hu
  obtain ⟨t, ht, hu⟩ := bind_eq_ok.1 hu
  cases hu
  exact (hp t ht).window offset count

end WellShaped

/-- Groups make a table of the right shape of any other. -/
theorem wellShaped_aggregate (keys : List String) (outputs : List Output) (p : Plan) :
    (Plan.aggregate keys outputs p).WellShaped := by
  intro u hu
  obtain ⟨t, -, hu⟩ := bind_eq_ok.1 hu
  obtain ⟨s, -, hu⟩ := bind_eq_ok.1 hu
  exact Table.wellShaped_of_aggregate hu

end Plan

/-! ## Operations of either engine -/

namespace Engine

variable {e : Engine} {fs : Functions} {r r' : Relation}

theorem wellShaped_toPlan (hr : r.WellShaped) : r.toPlan.WellShaped := by
  intro t ht
  refine hr t ?_
  rw [← r.collect_toPlan]
  exact ht

/-- An operation on tables and plans that keeps the shape of both keeps the shape of what an engine
works on. -/
theorem wellShaped_of_apply {onTable : Table → Except Fault Table}
    {onPlan : Plan → Except Fault Plan} (hr : r.WellShaped)
    (htable : ∀ t u, r.collect = .ok t → t.WellShaped → onTable t = .ok u → u.WellShaped)
    (hplan : ∀ p q, p.WellShaped → onPlan p = .ok q → q.WellShaped)
    (h : e.apply onTable onPlan r = .ok r') : r'.WellShaped := by
  cases e with
  | eager =>
    obtain ⟨t, ht, h⟩ := bind_eq_ok.1 h
    obtain ⟨u, hu, h⟩ := bind_eq_ok.1 h
    cases h
    rintro _ ⟨⟩
    exact htable t u ht (hr t ht) hu
  | deferred =>
    obtain ⟨q, hq, h⟩ := bind_eq_ok.1 h
    cases h
    exact hplan r.toPlan q (wellShaped_toPlan hr) hq

theorem wellShaped_adopt (hr : r.WellShaped) (h : e.adopt r = .ok r') : r'.WellShaped :=
  wellShaped_of_apply hr (fun _ _ _ ht hu => by cases hu; exact ht)
    (fun _ _ hp hq => by cases hq; exact hp) h

theorem wellShaped_extend (hr : r.WellShaped) {items : List (String × Expr)}
    (h : e.extend fs items r = .ok r') : r'.WellShaped := by
  refine wellShaped_of_apply hr (fun _ _ _ ht hu => Eager.wellShaped_extend ht hu)
    (fun p q hp hq => ?_) h
  obtain ⟨s, -, hq⟩ := bind_eq_ok.1 hq
  obtain ⟨outputs, -, hq⟩ := bind_eq_ok.1 hq
  cases hq
  exact hp.extend outputs

theorem wellShaped_project (hr : r.WellShaped) {items : List Selected}
    (h : e.project fs items r = .ok r') : r'.WellShaped := by
  refine wellShaped_of_apply hr (fun _ _ _ ht hu => Eager.wellShaped_project ht hu)
    (fun p q hp hq => ?_) h
  obtain ⟨_, -, hq⟩ := bind_eq_ok.1 hq
  obtain ⟨s, -, hq⟩ := bind_eq_ok.1 hq
  obtain ⟨outputs, -, hq⟩ := bind_eq_ok.1 hq
  cases hq
  exact hp.project outputs

theorem wellShaped_aggregate (hr : r.WellShaped) {keys : List String} {items : List Reduced}
    (hitems : keys = [] → ∀ i ∈ items, i.isAggregate) (h : e.aggregate fs keys items r = .ok r') :
    r'.WellShaped := by
  refine wellShaped_of_apply hr (fun _ _ _ _ hu => Eager.wellShaped_aggregate hitems hu)
    (fun p q hp hq => ?_) h
  obtain ⟨_, -, hq⟩ := bind_eq_ok.1 hq
  obtain ⟨s, -, hq⟩ := bind_eq_ok.1 hq
  dsimp only at hq
  split at hq
  · obtain ⟨outputs, -, hq⟩ := bind_eq_ok.1 hq
    cases hq
    exact hp.project outputs
  · obtain ⟨⟨aggregates, outputs⟩, -, hq⟩ := bind_eq_ok.1 hq
    cases hq
    exact (Plan.wellShaped_aggregate keys aggregates p).project outputs

theorem wellShaped_filter (hr : r.WellShaped) {condition : Expr}
    (h : e.filter fs condition r = .ok r') : r'.WellShaped := by
  refine wellShaped_of_apply hr (fun _ _ _ ht hu => Eager.wellShaped_filter ht hu)
    (fun p q hp hq => ?_) h
  obtain ⟨s, -, hq⟩ := bind_eq_ok.1 hq
  obtain ⟨f, -, hq⟩ := bind_eq_ok.1 hq
  obtain ⟨mask, -, hq⟩ := bind_eq_ok.1 hq
  cases hq
  exact hp.keep mask

theorem wellShaped_join {p : JoinPlan} {left right : Relation} (hleft : left.WellShaped)
    (hright : right.WellShaped) (h : e.join p left right = .ok r') : r'.WellShaped := by
  intro t ht
  obtain ⟨l, r, hl, hr, hjoin⟩ := collect_of_join h ht
  exact Eager.wellShaped_join (hleft l hl) (hright r hr) hjoin

theorem wellShaped_sort (hr : r.WellShaped) {keys : List (String × Bool)}
    (h : e.sort keys r = .ok r') : r'.WellShaped :=
  wellShaped_of_apply hr (fun _ _ _ ht hu => Eager.wellShaped_sort ht hu)
    (fun _ _ hp hq => by cases hq; exact hp.sort keys) h

theorem wellShaped_window (hr : r.WellShaped) {offset count : UInt64}
    (h : e.window offset count r = .ok r') : r'.WellShaped :=
  wellShaped_of_apply hr (fun _ _ _ ht hu => by cases hu; exact ht.window _ _)
    (fun _ _ hp hq => by cases hq; exact hp.window _ _) h

/-- On a plan a selection looks for names that occur twice, on a table it does not. -/
theorem wellShaped_select (hr : r.WellShaped) {names : List String}
    (hnames : e = .eager → names.Nodup) (h : e.select names r = .ok r') : r'.WellShaped := by
  cases e with
  | eager =>
    obtain ⟨t, ht, h⟩ := bind_eq_ok.1 h
    obtain ⟨u, hu, h⟩ := bind_eq_ok.1 h
    cases h
    rintro _ ⟨⟩
    exact Table.wellShaped_of_select (hr t ht).rectangular (hnames rfl) hu
  | deferred =>
    obtain ⟨q, hq, h⟩ := bind_eq_ok.1 h
    cases hq
    cases h
    exact (wellShaped_toPlan hr).project _

end Engine

end TableQuery
