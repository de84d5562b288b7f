import TableQuery.Function.Builtin
import TableQuery.Proofs.GroupItems
import TableQuery.Proofs.References
import TableQuery.Proofs.WellShaped

/-!
# The shape of the tables of a run

If the tables that a session supplies, registered or from its loaders, have pairwise different names
of columns and equally many cells in all of them, so has every table on the way of a run, on either
engine and whatever the operators are. Behind a projection the columns are named as the items are,
in their order.
-/

namespace TableQuery

namespace Session

/-- The tables that a session can come by have a property. -/
structure Supplies (P : Relation → Prop) (s : Session) : Prop where
  tables : ∀ x ∈ s.tables, P x.2
  loaders : ∀ l ∈ s.loaders, ∀ name r, l name = .ok (some r) → P r

namespace Supplies

variable {P : Relation → Prop} {s : Session}

theorem of_fromLoaders {name : String} {r : Relation} {ls : List Loader}
    (hls : ∀ l ∈ ls, ∀ name r, l name = .ok (some r) → P r)
    (h : Session.fromLoaders name ls = .ok r) : P r := by
  induction ls with
  | nil => cases h
  | cons l ls ih =>
    obtain ⟨hl, hls⟩ := List.forall_mem_cons.1 hls
    unfold Session.fromLoaders at h
    split at h
    · next r' hr' =>
      cases h
      exact hl name r hr'
    · exact ih hls h

theorem of_resolveTable (h : s.Supplies P) {name : String} {r : Relation}
    (hr : s.resolveTable name = .ok r) : P r := by
  unfold resolveTable at hr
  split at hr
  · next r' hr' =>
    cases hr
    split at hr'
    · cases hr'
    · exact h.tables _ (Registry.mem_of_get? hr')
  · exact of_fromLoaders h.loaders hr

/-- A reference registers no other tables. -/
theorem refer (h : s.Supplies P) {t : TableRef} {tables : Registry Relation}
    (ht : s.refer s.tables t = .ok tables) : { s with tables }.Supplies P := by
  refine ⟨?_, h.loaders⟩
  obtain ⟨r, hr, ht⟩ := bind_eq_ok.1 ht
  have hbound : ∀ x ∈ s.tables.insert t.label r, P x.2 := by
    intro x hx
    rcases Registry.mem_insert hx with rfl | hx
    · exact h.of_resolveTable hr
    · exact h.tables x hx
  split at ht
  · obtain ⟨replaced, -, ht⟩ := bind_eq_ok.1 ht
    cases ht
    cases replaced with
    | false => exact hbound
    | true => exact fun x hx => hbound x (List.mem_of_mem_filter hx)
  · cases ht
    exact h.tables

end Supplies

end Session

/-! ## The names of a projection -/

namespace Deferred

variable {fs : Functions} {p plan : Plan} {names : List String}

theorem map_fst_reductions {s : Schema} {n : Nat} {items : List Reduced}
    {aggregates outputs : List Output} (h : reductions fs s n items = .ok (aggregates, outputs)) :
    outputs.map Prod.fst = items.map Reduced.label := by
  induction items generalizing n aggregates outputs with
  | nil =>
    cases h
    rfl
  | cons i items ih =>
    cases i with
    | key column label =>
      obtain ⟨⟨_, rest⟩, hrest, h⟩ := bind_eq_ok.1 h
      cases h
      exact congrArg (label :: ·) (ih hrest)
    | aggregate e label =>
      obtain ⟨f, -, h⟩ := bind_eq_ok.1 h
      obtain ⟨⟨_, rest⟩, hrest, h⟩ := bind_eq_ok.1 h
      cases h
      exact congrArg (label :: ·) (ih hrest)

theorem names_of_outputs {outputs : List Output} (h : (Plan.project outputs p).names = .ok names) :
    names = outputs.map Prod.fst := by
  obtain ⟨s, hs, h⟩ := bind_eq_ok.1 h
  cases h
  obtain ⟨s', -, hs⟩ := bind_eq_ok.1 hs
  exact Schema.map_fst_ofOutputs hs

theorem names_project {items : List Selected} (h : project fs items p = .ok plan)
    (hnames : plan.names = .ok names) : names = items.map Selected.label := by
  obtain ⟨_, -, h⟩ := bind_eq_ok.1 h
  obtain ⟨s, -, h⟩ := bind_eq_ok.1 h
  obtain ⟨outputs, houtputs, h⟩ := bind_eq_ok.1 h
  cases h
  rw [names_of_outputs hnames]
  refine map_of_mapM (fun i o ho => ?_) houtputs
  cases i with
  | column source label =>
    cases ho
    rfl
  | computed e label =>
    obtain ⟨f, -, ho⟩ := bind_eq_ok.1 ho
    cases ho
    rfl

theorem names_aggregate {keys : List String} {items : List Reduced}
    (h : aggregate fs keys items p = .ok plan) (hnames : plan.names = .ok names) :
    names = items.map Reduced.label := by
  obtain ⟨_, -, h⟩ := bind_eq_ok.1 h
  obtain ⟨s, -, h⟩ := bind_eq_ok.1 h
  dsimp only at h
  split at h
  · obtain ⟨outputs, houtputs, h⟩ := bind_eq_ok.1 h
    cases h
    rw [names_of_outputs hnames]
    refine map_of_mapM (fun i o ho => ?_) houtputs
    cases i with
    | key column label =>
      cases ho
      rfl
    | aggregate e label =>
      obtain ⟨f, -, ho⟩ := bind_eq_ok.1 ho
      cases ho
      rfl
  · obtain ⟨⟨aggregates, outputs⟩, houtputs, h⟩ := bind_eq_ok.1 h
    cases h
    rw [names_of_outputs hnames, map_fst_reductions houtputs]

end Deferred

namespace Engine

variable {e : Engine} {fs : Functions} {r r' : Relation} {names : List String}

theorem names_of_project {items : List Selected} (h : e.project fs items r = .ok r')
    (hnames : r'.names = .ok names) : names = items.map Selected.label := by
  cases e with
  | eager =>
    obtain ⟨t, -, h⟩ := bind_eq_ok.1 h
    obtain ⟨out, hout, h⟩ := bind_eq_ok.1 h
    cases h
    cases hnames
    exact (Eager.names_project hout).1
  | deferred =>
    obtain ⟨plan, hplan, h⟩ := bind_eq_ok.1 h
    cases h
    exact Deferred.names_project hplan hnames

theorem names_of_aggregate {keys : List String} {items : List Reduced}
    (h : e.aggregate fs keys items r = .ok r') (hnames : r'.names = .ok names) :
    names = items.map Reduced.label := by
  cases e with
  | eager =>
    obtain ⟨t, -, h⟩ := bind_eq_ok.1 h
    obtain ⟨out, hout, h⟩ := bind_eq_ok.1 h
    cases h
    cases hnames
    exact (Eager.names_aggregate hout).1
  | deferred =>
    obtain ⟨plan, hplan, h⟩ := bind_eq_ok.1 h
    cases h
    exact Deferred.names_aggregate hplan hnames

end Engine

/-! ## Steps -/

namespace Setting

variable {c : Setting} {w w' : Working}

theorem label_selected (columns : List String) (i : Item) :
    (selected columns i).label = i.label := by
  unfold selected
  split <;> rfl

theorem label_reduced (keys : List GroupKey) (i : Item) (slot : Slot) :
    (reduced keys i slot).label = i.label := by
  unfold reduced
  split
  · split <;> rfl
  · rfl

/-- A projection of groups has one item for each of the given ones, and without keys none of them is
a key. -/
theorem exists_aggregate_of_project {keys : List GroupKey} (hw : w.keys = some keys)
    {items : List Item} (h : c.project w items = .ok w') :
    ∃ plan : List Reduced, plan.map Reduced.label = items.map Item.label ∧
      (keys.map GroupKey.column = [] → ∀ i ∈ plan, i.isAggregate) ∧
      c.engine.aggregate c.functions (keys.map GroupKey.column) plan w.table = .ok w'.table := by
  unfold project at h
  rw [hw] at h
  obtain ⟨slots, hslots, h⟩ := bind_eq_ok.1 h
  obtain ⟨r, hr, h⟩ := bind_eq_ok.1 h
  cases h
  obtain ⟨-, -, rfl⟩ := slots_eq_ok_iff.1 hslots
  refine ⟨_, ?_, fun hkeys i hi => ?_, hr⟩
  · have hitems :
        (items.zip (items.map (Item.slot (keys.map GroupKey.item)))).map Prod.fst = items :=
      List.map_fst_zip (Nat.le_of_eq (List.length_map _).symm)
    conv_rhs => rw [← hitems]
    rw [List.map_map, List.map_map]
    exact List.map_congr_left fun x _ => label_reduced keys x.1 x.2
  · obtain ⟨⟨i', slot⟩, -, rfl⟩ := List.mem_map.1 hi
    obtain rfl := List.map_eq_nil_iff.1 hkeys
    cases slot <;> rfl

theorem names_of_projected {items : List Item} (h : c.project w items = .ok w')
    {names : List String} (hnames : w'.table.names = .ok names) : names = items.map Item.label := by
  cases hw : w.keys with
  | none =>
    unfold project at h
    rw [hw] at h
    obtain ⟨columns, -, h⟩ := bind_eq_ok.1 h
    obtain ⟨r, hr, h⟩ := bind_eq_ok.1 h
    cases h
    rw [Engine.names_of_project hr hnames, List.map_map]
    exact List.map_congr_left fun i _ => label_selected columns i
  | some keys =>
    obtain ⟨plan, hlabels, -, hr⟩ := exists_aggregate_of_project hw h
    rw [Engine.names_of_aggregate hr hnames, hlabels]

theorem wellShaped_projected (ht : w.table.WellShaped) {items : List Item}
    (h : c.project w items = .ok w') : w'.table.WellShaped := by
  cases hw : w.keys with
  | none =>
    unfold project at h
    rw [hw] at h
    obtain ⟨columns, -, h⟩ := bind_eq_ok.1 h
    obtain ⟨r, hr, h⟩ := bind_eq_ok.1 h
    cases h
    exact Engine.wellShaped_project ht hr
  | some keys =>
    obtain ⟨plan, -, haggregate, hr⟩ := exists_aggregate_of_project hw h
    exact Engine.wellShaped_aggregate ht haggregate hr

theorem wellShaped_filtered (ht : w.table.WellShaped) {condition : String}
    (h : c.filter w condition = .ok w') : w'.table.WellShaped := by
  unfold filter at h
  split at h
  · obtain ⟨e, -, h⟩ := bind_eq_ok.1 h
    obtain ⟨r, hplain, h⟩ := bind_eq_ok.1 h
    obtain ⟨-, rfl⟩ := Working.intoPlain_eq_ok.1 hplain
    obtain ⟨r', hr', h⟩ := bind_eq_ok.1 h
    cases h
    exact Engine.wellShaped_filter ht hr'
  · cases h

theorem wellShaped_grouped (ht : w.table.WellShaped) {keys projection : List Item}
    (h : c.group w keys projection = .ok w') : w'.table.WellShaped := by
  obtain ⟨r, hplain, h⟩ := bind_eq_ok.1 h
  obtain ⟨-, rfl⟩ := Working.intoPlain_eq_ok.1 hplain
  obtain ⟨columns, -, h⟩ := bind_eq_ok.1 h
  obtain ⟨resolved, -, h⟩ := bind_eq_ok.1 h
  obtain ⟨slots, -, h⟩ := bind_eq_ok.1 h
  dsimp only at h
  split at h
  · cases h
    exact ht
  · obtain ⟨r', hr', h⟩ := bind_eq_ok.1 h
    cases h
    exact Engine.wellShaped_extend ht hr'

/-- Sort keys that are computed stand in helper columns until the rows are sorted. -/
theorem wellShaped_ordered (ht : w.table.WellShaped) {items : List OrderItem}
    (h : c.order w items = .ok w') : w'.table.WellShaped := by
  obtain ⟨r, hplain, h⟩ := bind_eq_ok.1 h
  obtain ⟨-, rfl⟩ := Working.intoPlain_eq_ok.1 hplain
  obtain ⟨columns, hcolumns, h⟩ := bind_eq_ok.1 h
  dsimp only at h
  split at h
  · obtain ⟨r', hsort, h⟩ := bind_eq_ok.1 h
    cases h
    exact Engine.wellShaped_sort ht hsort
  · obtain ⟨extended, hextend, h⟩ := bind_eq_ok.1 h
    obtain ⟨sorted, hsort, h⟩ := bind_eq_ok.1 h
    obtain ⟨selected, hselect, h⟩ := bind_eq_ok.1 h
    cases h
    have hsorted := Engine.wellShaped_sort (Engine.wellShaped_extend ht hextend) hsort
    refine Engine.wellShaped_select hsorted (fun heager => ?_) hselect
    rw [heager] at hextend
    obtain ⟨t, hcollect, -⟩ := bind_eq_ok.1 hextend
    rw [← Relation.names_of_collect hcolumns hcollect]
    exact (ht t hcollect).nodup

theorem wellShaped_joined {left right table : Relation} (hleft : left.WellShaped)
    (hright : right.WellShaped) {label : String} {mode : JoinMode} {on : List JoinKey}
    (h : c.joined left right label mode on = .ok table) : table.WellShaped := by
  obtain ⟨names, -, h⟩ := bind_eq_ok.1 h
  obtain ⟨names', -, h⟩ := bind_eq_ok.1 h
  obtain ⟨plan, -, h⟩ := bind_eq_ok.1 h
  exact Engine.wellShaped_join hleft hright h

variable {s s' : Session} {input output : Option Working} {op : Operator} {ops : List Operator}

/-- A step keeps the shape of tables, whether it loads one or goes on with the one it is given. -/
theorem Steps.wellShaped (h : c.Steps input s op w s') (hs : s.Supplies Relation.WellShaped)
    (hinput : ∀ v, input = some v → v.table.WellShaped) :
    w.table.WellShaped ∧ s'.Supplies Relation.WellShaped := by
  cases h with
  | load loaded =>
    obtain ⟨table, tables, hresolve, hadopt, hrefer, rfl⟩ := refer_of_load loaded
    exact ⟨Engine.wellShaped_adopt (hs.of_resolveTable hresolve) hadopt, hs.refer hrefer⟩
  | join _ loaded made =>
    obtain ⟨table, tables, hresolve, hadopt, hrefer, rfl⟩ := refer_of_load loaded
    have hloaded := Engine.wellShaped_adopt (hs.of_resolveTable hresolve) hadopt
    exact ⟨wellShaped_joined (hinput _ rfl) hloaded made, hs.refer hrefer⟩
  | project made => exact ⟨wellShaped_projected (hinput _ rfl) made, hs⟩
  | filter made => exact ⟨wellShaped_filtered (hinput _ rfl) made, hs⟩
  | group made => exact ⟨wellShaped_grouped (hinput _ rfl) made, hs⟩
  | order made => exact ⟨wellShaped_ordered (hinput _ rfl) made, hs⟩
  | limit _ made => exact ⟨Engine.wellShaped_window (hinput _ rfl) made, hs⟩

/-- A run keeps the shape of tables. -/
theorem Runs.wellShaped (h : c.Runs input s ops output s') (hs : s.Supplies Relation.WellShaped)
    (hinput : ∀ v, input = some v → v.table.WellShaped) :
    (∀ v, output = some v → v.table.WellShaped) ∧ s'.Supplies Relation.WellShaped := by
  induction h with
  | nil => exact ⟨hinput, hs⟩
  | cons first _ ih =>
    obtain ⟨hw, hs₁⟩ := (steps_of_checkedStep first).1.wellShaped hs hinput
    refine ih hs₁ ?_
    rintro _ ⟨⟩
    exact hw

/-- A run that ends with a projection ends with a table whose columns are named as the items are. -/
theorem Runs.names_of_projection {before : List Operator} {items : List Item}
    (h : c.Runs input s (before ++ [.project items]) (some w) s') :
    w.table.names = .ok (items.map Item.label) := by
  obtain ⟨v, s₁, -, hlast⟩ := append_iff.1 h
  cases hlast with
  | cons first rest =>
    cases rest
    obtain ⟨hstep, names, hnames⟩ := steps_of_checkedStep first
    cases hstep with
    | project made => rw [hnames, names_of_projected made hnames]

end Setting

/-- From tables of the right shape a run, on either engine and of whatever operators, makes tables
of the right shape: their columns have pairwise different names and equally many cells. The session
goes on supplying such tables. Behind a projection the columns are named as the items are, in their
order. Since operators up to any place are a run too, so it is on all the way. -/
theorem execute_keeps_shapes {fs : Functions} {s s' : Session} {ops : List Operator} {w : Working}
    (hs : s.Supplies Relation.WellShaped) (h : outcome (execute fs ops) s = (.ok w, s')) :
    (∀ t, w.table.collect = .ok t →
      t.names.Nodup ∧ ∀ c ∈ t.columns, c.cells.length = t.height) ∧
    s'.Supplies Relation.WellShaped ∧
    ∀ before items, ops = before ++ [.project items] →
      w.table.names = .ok (items.map Item.label) ∧
        ∀ t, w.table.collect = .ok t → t.names = items.map Item.label := by
  have hruns := runs_of_execute h
  obtain ⟨hw, hs'⟩ := hruns.wellShaped hs nofun
  refine ⟨fun t ht => ?_, hs', ?_⟩
  · obtain ⟨hnodup, hrectangular⟩ := hw w rfl t ht
    exact ⟨hnodup, hrectangular⟩
  · rintro before items rfl
    have hnames := hruns.names_of_projection
    exact ⟨hnames, fun t ht => Relation.names_of_collect hnames ht⟩

/-- A session on the deferred engine, with a table that has a column named like a helper, and
another table that a loader gives. -/
def orders : Session :=
  { Session.new with
    tables := [("T", .frame ⟨[⟨"id", .int64, [.int 1, .int 2, .int 2]⟩,
      ⟨"__fq_lk_0", .str, [.str "x", .null, .str "z"]⟩]⟩)]
    loaders := [.ofTables [("U", .frame ⟨[⟨"id", .int64, [.int 2, .int 3]⟩,
      ⟨"price", .int64, [.int 5, .int 7]⟩]⟩)]]
    engine := .deferred }

/-- The number of rows of each order, joined with its prices and sorted backwards. -/
def countOrders : List Operator :=
  let id : Item := .named (.column "id") "id" (some "order")
  let count : Item := .named .countStar "COUNT(*)" (some "rows")
  [.load ⟨"T", "t"⟩, .join ⟨"U", "u"⟩ .left [⟨"id", "u.id"⟩],
    .order [⟨.named (.neg (.column "id")) "-id" none, true⟩], .group [id] [id, count],
    .project [id, count]]

theorem orders_supplies_wellShaped : orders.Supplies Relation.WellShaped := by
  refine ⟨fun x hx => ?_, fun l hl name r hr => ?_⟩
  · obtain rfl := List.mem_singleton.1 hx
    rintro _ ⟨⟩
    exact ⟨by decide, by unfold Table.IsRectangular; decide⟩
  · obtain rfl := List.mem_singleton.1 hl
    have hr := Registry.mem_of_get? (Except.ok.inj hr)
    obtain ⟨rfl, rfl⟩ := Prod.mk.inj (List.mem_singleton.1 hr)
    rintro _ ⟨⟩
    exact ⟨by decide, by unfold Table.IsRectangular; decide⟩

theorem countOrders_keeps_shapes :
    ∃ w s' t, outcome (execute .builtin countOrders) orders = (.ok w, s') ∧
      w.table.collect = .ok t ∧ t.names = ["order", "rows"] ∧ t.names.Nodup ∧
      ∀ c ∈ t.columns, c.cells.length = t.height := by
  have hok : (outcome (execute .builtin countOrders) orders).1.toOption.any
      (fun w => w.table.collect.isOk) = true := by
    decide +kernel
  rcases h : outcome (execute .builtin countOrders) orders with ⟨f | w, s'⟩
  · rw [h] at hok
    cases hok
  · rw [h] at hok
    obtain ⟨t, ht⟩ := exists_eq_ok hok
    obtain ⟨hshape, -, hnames⟩ := execute_keeps_shapes orders_supplies_wellShaped h
    obtain ⟨hnodup, hcells⟩ := hshape t ht
    exact ⟨w, s', t, rfl, ht, (hnames (countOrders.take 4) _ rfl).2 t ht, hnodup, hcells⟩

end TableQuery
