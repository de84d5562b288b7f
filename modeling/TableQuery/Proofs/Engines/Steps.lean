import TableQuery.Proofs.Engines.Groups
import TableQuery.Proofs.Engines.Join
import TableQuery.Proofs.Run

/-!
# Operators on both engines

An operator that does not load a table goes alike on both engines: it fails with the same fault, or
it hands on a table on the one engine and a plan that stands for it on the other one. The fault of a
plan shows as soon as its columns are looked at, so it belongs to the same operator.
-/

namespace TableQuery

/-- The table handed on, if it has columns to look at. -/
def Working.checked (w : Working) : Except Fault Working :=
  w.table.names.map fun _ => w

theorem Plan.StandsFor.checked {p : Plan} {t : Table} (h : p.StandsFor t) {w : Working}
    (hw : w.table = .plan p) : w.checked = .ok w := by
  rw [Working.checked, hw, Relation.names, h.names]
  rfl

/-- Two results of an operator: a table with a property and a plan that stands for it, with the same
group keys, or the same fault. -/
def Agree (P : Table → Prop) (keys : Option (List GroupKey)) (x y : Except Fault Working) : Prop :=
  (∃ t p, x = .ok ⟨.frame t, keys⟩ ∧ y = .ok ⟨.plan p, keys⟩ ∧ p.StandsFor t ∧ P t) ∨
  ∃ f, x = .error f ∧ y = .error f

theorem Agree.error {P : Table → Prop} {keys : Option (List GroupKey)} (f : Fault) :
    Agree P keys (.error f) (.error f) :=
  .inr ⟨f, rfl, rfl⟩

/-- Operations that are alike agree once the columns are looked at. -/
theorem Alike.agree {P : Table → Prop} {onTable : Table → Except Fault Table}
    {onPlan : Plan → Except Fault Plan} {t : Table} {p : Plan}
    (h : Alike P (onTable t) (onPlan p)) :
    Agree P none
      ((do return .plain (← Engine.eager.apply onTable onPlan (.frame t))) >>= Working.checked)
      ((do return .plain (← Engine.deferred.apply onTable onPlan (.plan p))) >>=
        Working.checked) := by
  simp only [Engine.apply, Relation.collect, Relation.toPlan, ok_bind]
  rcases h with ⟨t', p', hx, hy, hp, ht⟩ | ⟨f, hx, hy | ⟨p', hy, hp⟩⟩
  · rw [hx, hy]
    exact .inl ⟨t', p', rfl, hp.checked rfl, hp, ht⟩
  · rw [hx, hy]
    exact .error f
  · rw [hx, hy]
    have hnames : (Working.plain (.plan p')).checked = .error f := by
      rw [Working.checked, Working.plain, Relation.names, Plan.names, hp]
      rfl
    exact .inr ⟨f, rfl, hnames⟩

namespace Setting

variable {fs : Functions} {t : Table} {p : Plan}

/-- Filters agree by a condition that is typed, with its signs of equality paired. -/
theorem filter_agree (hp : p.StandsFor t) (ht : t.IsBasic) {condition : String}
    (hcondition : ∀ e, Expr.parse (Sql.pairSigns condition) = .ok e → e.HasType t.schema .bool) :
    Agree (fun t' => t'.IsBasic ∧ t'.height ≤ t.height ∧ t'.schema = t.schema) none
      (filter ⟨.eager, fs⟩ (.plain (.frame t)) condition >>= Working.checked)
      (filter ⟨.deferred, fs⟩ (.plain (.plan p)) condition >>= Working.checked) := by
  unfold filter
  cases hparse : Expr.parse (Sql.pairSigns condition) with
  | error cause => exact .error _
  | ok e => exact (Eager.filter_alike hp ht (hcondition e hparse)).agree

/-- What a bare column selects from a table. -/
theorem isPlain_selected {i : Item} {name : String} (hi : i.expr = .column name) :
    (selected t.names i).IsPlain t := by
  unfold selected
  rw [hi]
  dsimp only [Expr.asColumn?, Option.bind_some]
  cases hresolve : Name.resolve? name t.names with
  | none => exact ⟨name, rfl, hresolve⟩
  | some source => exact Name.mem_of_resolve? hresolve

/-- Selections of bare columns agree. -/
theorem project_agree (hp : p.StandsFor t) (ht : t.IsBasic) {items : List Item}
    (hitems : ∀ i ∈ items, ∃ name, i.expr = .column name) :
    Agree (fun t' => t'.IsBasic ∧ t'.height ≤ t.height) none
      (project ⟨.eager, fs⟩ (.plain (.frame t)) items >>= Working.checked)
      (project ⟨.deferred, fs⟩ (.plain (.plan p)) items >>= Working.checked) := by
  simp only [project, Working.plain, Relation.names, hp.names, ok_bind]
  refine (Eager.project_alike hp ht (List.forall_mem_map.2 fun i hi => ?_)).agree
  obtain ⟨name, hname⟩ := hitems i hi
  exact isPlain_selected hname

/-- The rows of a window agree. -/
theorem limit_agree (hp : p.StandsFor t) (ht : t.IsBasic) (hheight : t.height < UInt32.size)
    (offset count : UInt64) :
    Agree Table.IsBasic none
      ((do return .plain (← Engine.eager.window offset count (.frame t))) >>= Working.checked)
      ((do return .plain (← Engine.deferred.window offset count (.plan p))) >>=
        Working.checked) :=
  (Eager.window_alike hp ht hheight offset count).agree

/-- A column that a sort key already is, is one of those there are. -/
theorem mem_of_orderColumn? {columns : List String} {i : Item} {column : String}
    (h : orderColumn? columns i = some column) : column ∈ columns := by
  unfold orderColumn? at h
  split at h
  · next c hc =>
    cases h
    obtain ⟨name, -, hresolve⟩ := Option.bind_eq_some_iff.1 hc
    exact Name.mem_of_resolve? hresolve
  · exact List.mem_of_find?_eq_some h

theorem resolve?_of_orderColumn? {columns : List String} {i : Item} {name : String}
    (hi : i.expr = .column name) (h : orderColumn? columns i = none) :
    Name.resolve? name columns = none := by
  cases hresolve : Name.resolve? name columns with
  | none => rfl
  | some c =>
    rw [orderColumn?, hi, Expr.asColumn?, Option.bind_some, hresolve] at h
    cases h

variable (fs) in
/-- Columns that there are not cannot be computed on either engine. -/
theorem extend_noColumn (hp : p.StandsFor t) {name : String}
    (hname : Name.resolve? name t.names = none) (label : String) (items : List (String × Expr)) :
    Eager.extend fs ((label, .column name) :: items) t = .error (.noColumn name t.names) ∧
      Deferred.extend fs ((label, .column name) :: items) p = .error (.noColumn name t.names) := by
  constructor
  · simp [Eager.extend, Eager.computed, Eager.rowValues, Bound.bind, Bound.ofExpr, Name.resolve,
      hname]
  · simp [Deferred.extend, hp.schema, Deferred.lowered, Formula.lower, Formula.ofExpr, Name.resolve,
      hname]

/-- Sorts by bare columns agree. A key that is not among the columns is computed before the sort,
and fails there, as it names a column that there is not. -/
theorem order_agree (hp : p.StandsFor t) (ht : t.IsBasic) {items : List OrderItem}
    (hitems : ∀ o ∈ items, ∃ name, o.item.expr = .column name) :
    Agree (fun t' => t'.IsBasic ∧ t'.height ≤ t.height) none
      (order ⟨.eager, fs⟩ (.plain (.frame t)) items >>= Working.checked)
      (order ⟨.deferred, fs⟩ (.plain (.plan p)) items >>= Working.checked) := by
  simp only [order, Working.plain, Working.intoPlain, Relation.names, hp.names, ok_bind]
  generalize hfound : items.zipIdx.map (fun x =>
    (x.1, x.2, orderColumn? t.names x.1.item)) = found
  have hall : ∀ k ∈ found, (∃ name, k.1.item.expr = .column name) ∧
      k.2.2 = orderColumn? t.names k.1.item := by
    rw [← hfound]
    refine List.forall_mem_map.2 fun x hx => ⟨hitems x.1 ?_, rfl⟩
    exact List.fst_mem_of_mem_zipIdx hx
  cases hmissing : found.filter fun x => x.2.2.isNone with
  | nil =>
    simp only [List.map_nil, List.isEmpty_nil, if_true]
    refine (Eager.sort_alike hp ht (List.forall_mem_map.2 fun k hk => ?_)).agree
    obtain ⟨column, hcolumn⟩ : ∃ column, k.2.2 = some column := by
      have hsome := List.filter_eq_nil_iff.1 hmissing k hk
      rwa [Bool.not_eq_true, Option.isNone_eq_false_iff, Option.isSome_iff_exists] at hsome
    have hmem := mem_of_orderColumn? ((hall k hk).2.symm.trans hcolumn)
    rwa [hcolumn]
  | cons k rest =>
    obtain ⟨hk, hnone⟩ := List.mem_filter.1 (hmissing ▸ List.mem_cons_self : k ∈ found.filter _)
    obtain ⟨⟨name, hname⟩, hcolumn⟩ := hall k hk
    rw [hcolumn, Option.isNone_iff_eq_none] at hnone
    obtain ⟨heager, hdeferred⟩ := extend_noColumn fs hp
      (resolve?_of_orderColumn? hname hnone) (orderHelper k.2.1)
      (rest.map fun x => (orderHelper x.2.1, x.1.item.expr))
    rw [← hname] at heager hdeferred
    simp only [List.map_cons, List.isEmpty_cons, Bool.false_eq_true, if_false, Engine.extend,
      Engine.apply, Relation.collect, Relation.toPlan, ok_bind, heager, hdeferred, error_bind]
    exact .error _

variable (fs) in
/-- Groupings by bare columns agree: the table stays as it is and gets the keys with the columns
that they denote. -/
theorem group_agree (hp : p.StandsFor t) {keys : List Item} (projection : List Item)
    (hkeys : ∀ k ∈ keys, ∃ name, k.expr = .column name) :
    ∃ resolved, Agree (fun t' => t' = t ∧
        keys.mapM (keyColumn t.names) = .ok (resolved.map GroupKey.column)) (some resolved)
      (group ⟨.eager, fs⟩ (.plain (.frame t)) keys projection >>= Working.checked)
      (group ⟨.deferred, fs⟩ (.plain (.plan p)) keys projection >>= Working.checked) := by
  have hcomputed : keys.filter (fun key => key.expr.asColumn?.isNone) = [] := by
    refine List.filter_eq_nil_iff.2 fun k hk => ?_
    obtain ⟨name, hname⟩ := hkeys k hk
    simp [hname, Expr.asColumn?]
  simp only [group, Working.plain, Working.intoPlain, Relation.names, hp.names, ok_bind, hcomputed]
  cases hresolved : (keys.mapM fun key => do
      return (⟨← keyColumn t.names key, key⟩ : GroupKey) : Except Fault _) with
  | error f => exact ⟨[], .error f⟩
  | ok resolved =>
    simp only [ok_bind]
    cases slots keys projection with
    | error f => exact ⟨[], .error f⟩
    | ok l =>
      refine ⟨resolved, .inl ⟨t, p, rfl, hp.checked rfl, hp, rfl, ?_⟩⟩
      rw [mapM_eq_ok, List.forall₂_map_right_iff]
      refine (mapM_eq_ok.1 hresolved).imp fun k r hr => ?_
      obtain ⟨column, hcolumn, hr⟩ := bind_eq_ok.1 hr
      cases hr
      exact hcolumn

/-- The columns that bare keys denote are among those there are. -/
theorem mem_of_keyColumn {columns : List String} {keys : List Item} {resolved : List String}
    (hkeys : ∀ k ∈ keys, ∃ name, k.expr = .column name)
    (h : keys.mapM (keyColumn columns) = .ok resolved) : ∀ c ∈ resolved, c ∈ columns := by
  intro c hc
  obtain ⟨k, hk, hcolumn⟩ := (mem_iff_of_mapM h).1 hc
  obtain ⟨name, hname⟩ := hkeys k hk
  simp only [keyColumn, hname, Expr.asColumn?, Name.resolve] at hcolumn
  cases hresolve : Name.resolve? name columns with
  | none =>
    rw [hresolve] at hcolumn
    cases hcolumn
  | some source =>
    rw [hresolve] at hcolumn
    cases hcolumn
    exact Name.mem_of_resolve? hresolve

/-- What an item selects from groups: a key, or a reduction. -/
theorem isPlain_reduced {resolved : List GroupKey} {items : List Item} {l : List Slot} {s : Schema}
    (hslots : slots (resolved.map GroupKey.item) items = .ok l)
    (hitems : ∀ i ∈ items, (∃ name, i.expr = .column name) ∨ i.expr.IsReduction s) :
    ∀ r ∈ (items.zip l).map fun x => reduced resolved x.1 x.2,
      r.IsPlain (resolved.map GroupKey.column) s := by
  unfold slots at hslots
  dsimp only at hslots
  split at hslots
  · next hempty =>
    cases hslots
    rw [Bool.and_eq_true, List.isEmpty_iff, List.isEmpty_iff, List.map_eq_nil_iff,
      List.map_eq_nil_iff] at hempty
    have hzip : items.zip (items.map fun i => (Item.keyIndex? (resolved.map GroupKey.item) i).elim
        Slot.aggregate .key) = items.map fun i =>
          (i, (Item.keyIndex? (resolved.map GroupKey.item) i).elim Slot.aggregate .key) := by
      conv_lhs => rw [← List.map_id items]
      rw [List.map_map, List.zip_map']
      rfl
    rw [hzip, List.map_map]
    refine List.forall_mem_map.2 fun i hi => ?_
    rw [Function.comp_apply]
    cases hindex : Item.keyIndex? (resolved.map GroupKey.item) i with
    | some k =>
      obtain ⟨hk, -⟩ := List.findIdx?_eq_some_iff_getElem.1 hindex
      rw [List.length_map] at hk
      dsimp only [Option.elim, reduced]
      rw [List.getElem?_eq_getElem hk]
      exact List.mem_map_of_mem (List.getElem_mem hk)
    | none =>
      have haggregate : i.expr.containsAggregate = true := by
        simpa [hindex] using List.filter_eq_nil_iff.1 hempty.2 i hi
      rcases hitems i hi with ⟨name, hname⟩ | hreduction
      · rw [hname] at haggregate
        cases haggregate
      · exact hreduction
  · cases hslots

/-- Selections from groups agree. -/
theorem grouped_agree (hp : p.StandsFor t) (ht : t.IsBasic) (ho : t.HasOrdinaryNames)
    (hheight : t.height < UInt32.size) {resolved : List GroupKey}
    (hkeys : (resolved.map GroupKey.column).Nodup)
    (hmem : ∀ k ∈ resolved.map GroupKey.column, k ∈ t.names) {items : List Item}
    (hitems : ∀ i ∈ items, (∃ name, i.expr = .column name) ∨ i.expr.IsReduction t.schema) :
    Agree (fun t' => t'.IsBasic ∧ t'.height < UInt32.size) none
      (project ⟨.eager, fs⟩ ⟨.frame t, some resolved⟩ items >>= Working.checked)
      (project ⟨.deferred, fs⟩ ⟨.plan p, some resolved⟩ items >>= Working.checked) := by
  simp only [project]
  cases hslots : slots (resolved.map GroupKey.item) items with
  | error f => exact .error f
  | ok l =>
    simp only [ok_bind]
    exact (Eager.aggregate_alike hp ht ho hheight hkeys hmem
      (isPlain_reduced hslots hitems)).agree

variable (fs) in
/-- Joins agree if the joined tables do. -/
theorem joined_agree (hp : p.StandsFor t) (ht : t.IsBasic) (ho : t.HasOrdinaryNames)
    {right : Table} {pr : Plan} (hpr : pr.StandsFor right) (hr : right.IsBasic)
    (hro : right.HasOrdinaryNames) (label : String) (mode : JoinMode) (on : List JoinKey) :
    Agree (fun t' => t'.IsBasic ∧ t'.HasOrdinaryNames) none
      ((joined ⟨.eager, fs⟩ (.frame t) (.frame right) label mode on).map .plain >>= Working.checked)
      ((joined ⟨.deferred, fs⟩ (.plan p) (.plan pr) label mode on).map .plain >>=
        Working.checked) := by
  simp only [joined, Relation.names, hp.names, hpr.names, ok_bind]
  cases hplan : JoinPlan.ofKeys mode label on t.names right.names with
  | error f => exact .error f
  | ok plan =>
    have halike := Eager.join_alike_basic (p := plan) hp hpr ht hr ho hro
    have hmap (x : Except Fault Relation) : x.map .plain = do return Working.plain (← x) := by
      cases x <;> rfl
    rw [hmap, hmap]
    exact @Alike.agree _ (fun t => Eager.join plan t right)
      (fun p => Deferred.join plan p pr) t p halike

end Setting

end TableQuery
