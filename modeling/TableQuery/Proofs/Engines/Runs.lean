import TableQuery.Proofs.Engines.Fragment
import TableQuery.Proofs.Engines.Steps
import TableQuery.Proofs.Frames
import TableQuery.Proofs.Phases

/-!
# Queries on both engines

A query without computed columns, over tables of whole numbers, texts and truth values, gives the
same on both engines: the same table, with the names, types and rows in the same order, or the same
fault at the same operator. The condition has to be typed as it is read, with its signs of equality
paired.
-/

namespace TableQuery

namespace Select

/-- The operators that load and join the tables of a query. -/
def sources (q : Select) : List Operator :=
  .load q.base :: q.joins.map fun j => .join j.1 j.2.1 j.2.2

/-- The operators behind the selection of a query. -/
def closing (q : Select) : List Operator :=
  (q.order.map Operator.order).toList ++ (q.window.map fun w => .limit w.1 w.2).toList

/-- The operators of a query from its selection on. -/
def selecting (q : Select) : List Operator :=
  (q.groupKeys.map fun keys => .group keys (q.items.getD [])).toList ++
    ((q.items.map Operator.project).toList ++ q.closing)

theorem operators_eq (q : Select) :
    q.operators = q.sources ++ ((q.condition.map Operator.filter).toList ++ q.selecting) := by
  simp [operators, sources, selecting, closing]

/-- A query that does not group has no aggregates. -/
theorem not_containsAggregate {q : Select} (h : q.groupKeys = none) {items : List Item}
    (hitems : q.items = some items) : ∀ i ∈ items, i.expr.containsAggregate = false := by
  unfold groupKeys at h
  split at h
  · cases h
  · rw [hitems, Option.getD_some] at h
    split at h
    · cases h
    · next hany => simpa using hany

/-- The keys by which a query groups are written, or there are none and it has items that aggregate.
-/
theorem keys_of_groupKeys {q : Select} {keys : List Item} (h : q.groupKeys = some keys)
    (hitems : q.keys.isSome → q.items.isSome) :
    (q.keys = some keys ∨ keys = []) ∧ ∃ items, q.items = some items := by
  unfold groupKeys at h
  split at h
  · next keys' hkeys =>
    cases h
    exact ⟨.inl hkeys, Option.isSome_iff_exists.1 (hitems (by rw [hkeys]; rfl))⟩
  · split at h
    · next hany =>
      cases h
      refine ⟨.inr rfl, ?_⟩
      cases hq : q.items with
      | none =>
        rw [hq] at hany
        cases hany
      | some items => exact ⟨items, rfl⟩
    · cases h

end Select

theorem Expr.IsReduction.containsAggregate {s : Schema} {e : Expr} (h : e.IsReduction s) :
    e.containsAggregate = true := by
  cases h with
  | countStar => rfl
  | column ha _ => simp [Expr.containsAggregate, ha]

namespace Setting

/-- The table that a run ends with, at hand. -/
def collected (c : Setting) (i : Nat) (input : Option Working) (ops : List Operator) (s : Session) :
    Except Failure Table :=
  (outcome (c.executeFrom i input ops) s).1 >>= fun w =>
    w.intoPlain "result" >>= Relation.collect

theorem outcome_collected (fs : Functions) (ops : List Operator) (s : Session) :
    (outcome (executeCollect fs ops) s).1 = collected ⟨s.engine, fs⟩ 0 none ops s := by
  rw [outcome_executeCollect, collected]
  rcases outcome (executeFrom ⟨s.engine, fs⟩ 0 none ops) s with ⟨f | w, s'⟩ <;> rfl

section

variable {c : Setting} {i : Nat} {input : Option Working} {op : Operator} {ops : List Operator}
  {s s' : Session}

theorem collected_of_ok {w : Working} (h : outcome (c.checkedStep op input) s = (.ok w, s')) :
    c.collected i input (op :: ops) s = c.collected (i + 1) (some w) ops s' := by
  rw [collected, outcome_executeFrom_cons, h, collected]

theorem collected_of_error {f : Fault} (h : outcome (c.checkedStep op input) s = (.error f, s')) :
    c.collected i input (op :: ops) s = .error (.execution (.stage ⟨i, op.text⟩ f)) := by
  rw [collected, outcome_executeFrom_cons, h]
  rfl

theorem outcome_checkedStep_eq {x : Except Fault Working}
    (h : outcome (c.step op input) s = (x, s')) :
    outcome (c.checkedStep op input) s = (x >>= Working.checked, s') := by
  rw [outcome_checkedStep, h]
  cases x <;> rfl

theorem outcome_checkedStep_join {ref : TableRef} (left : Relation) {right : Relation}
    (mode : JoinMode) (on : List JoinKey) (h : outcome (c.load ref) s = (.ok right, s')) :
    outcome (c.checkedStep (.join ref mode on) (some (.plain left))) s =
      ((c.joined left right ref.label mode on).map .plain >>= Working.checked, s') := by
  refine outcome_checkedStep_eq ?_
  change outcome (c.join (.plain left) ref mode on) s = _
  rw [outcome_join c rfl, h]
  rfl

theorem outcome_checkedStep_join_error {ref : TableRef} {f : Fault} (left : Relation)
    (mode : JoinMode) (on : List JoinKey) (h : outcome (c.load ref) s = (.error f, s')) :
    outcome (c.checkedStep (.join ref mode on) (some (.plain left))) s = (.error f, s') := by
  have hstep : outcome (c.step (.join ref mode on) (some (.plain left))) s = (.error f, s') := by
    change outcome (c.join (.plain left) ref mode on) s = _
    rw [outcome_join c rfl, h]
  rw [outcome_checkedStep, hstep]

end

section

variable {fs : Functions} {P : Table → Prop} {keys : Option (List GroupKey)} {i : Nat}
  {input input' : Option Working} {op : Operator} {ops : List Operator} {s s' u u' : Session}
  {x y : Except Fault Working}

/-- Two runs end alike if their first steps agree and they end alike from there. -/
theorem collected_agree (hx : outcome (step ⟨.eager, fs⟩ op input) s = (x, u))
    (hy : outcome (step ⟨.deferred, fs⟩ op input') s' = (y, u'))
    (h : Agree P keys (x >>= Working.checked) (y >>= Working.checked))
    (hrest : ∀ t p, p.StandsFor t → P t →
      collected ⟨.eager, fs⟩ (i + 1) (some ⟨.frame t, keys⟩) ops u =
        collected ⟨.deferred, fs⟩ (i + 1) (some ⟨.plan p, keys⟩) ops u') :
    collected ⟨.eager, fs⟩ i input (op :: ops) s =
      collected ⟨.deferred, fs⟩ i input' (op :: ops) s' := by
  have hx := outcome_checkedStep_eq hx
  have hy := outcome_checkedStep_eq hy
  rcases h with ⟨t, p, ht, hp, hstands, hP⟩ | ⟨f, ht, hp⟩
  · rw [ht] at hx
    rw [hp] at hy
    rw [collected_of_ok hx, collected_of_ok hy]
    exact hrest t p hstands hP
  · rw [ht] at hx
    rw [hp] at hy
    rw [collected_of_error hx, collected_of_error hy]

/-- Two runs whose first steps fail alike end alike. -/
theorem collected_fails {f : Fault} (hx : outcome (step ⟨.eager, fs⟩ op input) s = (.error f, u))
    (hy : outcome (step ⟨.deferred, fs⟩ op input') s' = (.error f, u')) :
    collected ⟨.eager, fs⟩ i input (op :: ops) s =
      collected ⟨.deferred, fs⟩ i input' (op :: ops) s' := by
  rw [collected_of_error (outcome_checkedStep_eq hx), collected_of_error (outcome_checkedStep_eq hy)]

end

variable {fs : Functions} {t : Table} {p : Plan} {s s' : Session}

theorem collected_nil (hp : p.StandsFor t) (i : Nat) :
    collected ⟨.eager, fs⟩ i (some (.plain (.frame t))) [] s =
      collected ⟨.deferred, fs⟩ i (some (.plain (.plan p))) [] s' := by
  rw [collected, collected, outcome_executeFrom_nil_some, outcome_executeFrom_nil_some]
  exact hp.collect.symm

/-- The end of a query: a window of rows, if it has one. -/
theorem collected_window (hp : p.StandsFor t) (ht : t.IsBasic) (hheight : t.height < UInt32.size)
    (window : Option (UInt64 × UInt64)) (i : Nat) :
    collected ⟨.eager, fs⟩ i (some (.plain (.frame t)))
        (window.map fun w => .limit w.1 w.2).toList s =
      collected ⟨.deferred, fs⟩ i (some (.plain (.plan p)))
        (window.map fun w => .limit w.1 w.2).toList s' := by
  cases window with
  | none => exact collected_nil hp i
  | some w =>
    refine collected_agree (outcome_liftM _ s) (outcome_liftM _ s')
      (limit_agree hp ht hheight w.1 w.2) fun t p hp ht => ?_
    exact collected_nil hp (i + 1)

/-- What comes behind the selection of a query. -/
theorem collected_closing {q : Select} (hp : p.StandsFor t) (ht : t.IsBasic)
    (hheight : t.height < UInt32.size)
    (horder : ∀ items, q.order = some items → ∀ o ∈ items, ∃ name, o.item.expr = .column name)
    (i : Nat) :
    collected ⟨.eager, fs⟩ i (some (.plain (.frame t))) q.closing s =
      collected ⟨.deferred, fs⟩ i (some (.plain (.plan p))) q.closing s' := by
  rw [Select.closing]
  cases hitems : q.order with
  | none => exact collected_window hp ht hheight q.window i
  | some items =>
    refine collected_agree (outcome_liftM _ s) (outcome_liftM _ s')
      (order_agree hp ht (horder items hitems)) fun t' p' hp' ht' => ?_
    exact collected_window hp' ht'.1 (Nat.lt_of_le_of_lt ht'.2 hheight) q.window (i + 1)

/-- The selection of a query, and what comes behind it. -/
theorem collected_selecting {q : Select} (hitems : q.keys.isSome → q.items.isSome)
    (hp : p.StandsFor t) (ht : t.IsBasic) (ho : t.HasOrdinaryNames)
    (hheight : t.height < UInt32.size) (hq : q.Fits t.schema) (i : Nat) :
    collected ⟨.eager, fs⟩ i (some (.plain (.frame t))) q.selecting s =
      collected ⟨.deferred, fs⟩ i (some (.plain (.plan p))) q.selecting s' := by
  rw [Select.selecting]
  cases hkeys : q.groupKeys with
  | none =>
    cases hselected : q.items with
    | none => exact collected_closing hp ht hheight hq.order i
    | some items =>
      have hcolumns : ∀ i ∈ items, ∃ name, i.expr = .column name := by
        intro i hi
        refine (hq.items items hselected i hi).resolve_right fun hreduction => ?_
        have hnone := Select.not_containsAggregate hkeys hselected i hi
        rw [hreduction.containsAggregate] at hnone
        cases hnone
      refine collected_agree (outcome_liftM _ s) (outcome_liftM _ s')
        (project_agree hp ht hcolumns) fun t' p' hp' ht' => ?_
      exact collected_closing hp' ht'.1 (Nat.lt_of_le_of_lt ht'.2 hheight) hq.order (i + 1)
  | some keys =>
    obtain ⟨hwritten, items, hselected⟩ := Select.keys_of_groupKeys hkeys hitems
    rw [hselected]
    have hbare : ∀ k ∈ keys, ∃ name, k.expr = .column name := by
      rcases hwritten with hwritten | rfl
      · exact hq.keys keys hwritten
      · exact List.forall_mem_nil _
    have hdistinct : ∀ columns, keys.mapM (keyColumn t.names) = .ok columns → columns.Nodup := by
      intro columns hcolumns
      rcases hwritten with hwritten | rfl
      · rw [← Table.map_fst_schema] at hcolumns
        exact hq.distinct keys columns hwritten hcolumns
      · cases hcolumns
        exact List.nodup_nil
    obtain ⟨resolved, hagree⟩ := group_agree fs hp items hbare
    refine collected_agree (outcome_liftM _ s) (outcome_liftM _ s') hagree fun t' p' hp' ht' => ?_
    obtain ⟨rfl, hcolumns⟩ := ht'
    refine collected_agree (outcome_liftM _ s) (outcome_liftM _ s')
      (grouped_agree hp' ht ho hheight (hdistinct _ hcolumns) (mem_of_keyColumn hbare hcolumns)
        (hq.items items hselected)) fun t p hp ht => ?_
    exact collected_closing hp ht.1 ht.2 hq.order (i + 2)

/-- What comes behind the joined tables of a query. -/
theorem collected_filter {q : Select} (hitems : q.keys.isSome → q.items.isSome)
    (hp : p.StandsFor t) (ht : t.IsBasic) (ho : t.HasOrdinaryNames)
    (hheight : t.height < UInt32.size) (hq : q.Fits t.schema) (i : Nat) :
    collected ⟨.eager, fs⟩ i (some (.plain (.frame t)))
        ((q.condition.map Operator.filter).toList ++ q.selecting) s =
      collected ⟨.deferred, fs⟩ i (some (.plain (.plan p)))
        ((q.condition.map Operator.filter).toList ++ q.selecting) s' := by
  cases hcondition : q.condition with
  | none => exact collected_selecting hitems hp ht ho hheight hq i
  | some condition =>
    refine collected_agree (outcome_liftM _ s) (outcome_liftM _ s')
      (filter_agree hp ht fun e => hq.condition condition e hcondition) fun t' p' hp' ht' => ?_
    obtain ⟨ht', hle, hschema⟩ := ht'
    have ho' : t'.HasOrdinaryNames := by
      rw [Table.HasOrdinaryNames, ← Table.map_fst_schema, hschema, Table.map_fst_schema]
      exact ho
    rw [← hschema] at hq
    exact collected_selecting hitems hp' ht' ho' (Nat.lt_of_le_of_lt hle hheight) hq (i + 1)

end Setting

/-! ## Loading and joining -/

namespace Session

/-- A session without loaders, whose tables, at hand or put off, have a property. -/
abbrev Stores (P : Table → Prop) : Session → Prop :=
  Registers fun r => ∃ t, r.StandsFor t ∧ P t

/-- Loading reads no more of a session than its tables, settings and loaders. -/
theorem outcome_loadTable_engine (e : Engine) (source : String) (label : Option String)
    (s : Session) :
    outcome (loadTable source label none) { s with engine := e } =
      ((outcome (loadTable source label none) s).1,
        { (outcome (loadTable source label none) s).2 with engine := e }) := by
  have hresolve : ({ s with engine := e } : Session).resolveTable source = s.resolveTable source :=
    rfl
  simp only [loadTable, outcome_bind, outcome_get, outcome_liftM, hresolve]
  cases s.resolveTable source with
  | error f => rfl
  | ok r =>
    dsimp only
    split
    · rfl
    · next a _ =>
      have hadd : Session.addTable a r true { s with engine := e } =
          { Session.addTable a r true s with engine := e } := by
        unfold Session.addTable
        split <;> rfl
      simp only [outcome_bind, outcome_modify, outcome_get, outcome_liftM, hadd]
      generalize Session.addTable a r true s = added
      have hconfig : ({ added with engine := e } : Session).configBool aliasReplaceKey true =
          added.configBool aliasReplaceKey true :=
        rfl
      rw [hconfig]
      cases added.configBool aliasReplaceKey true with
      | error f => rfl
      | ok replace => cases replace <;> rfl

end Session

namespace Setting

variable {fs : Functions} {P : Table → Prop} {s : Session}

variable (fs) in
/-- Both engines load the same table, or none. -/
theorem load_alike (h : s.Stores P) (ref : TableRef) :
    (∃ f, ∃ u u' : Session, outcome (load ⟨.eager, fs⟩ ref) { s with engine := .eager } = (.error f, u) ∧
      outcome (load ⟨.deferred, fs⟩ ref) { s with engine := .deferred } = (.error f, u')) ∨
    ∃ t p, ∃ u : Session, p.StandsFor t ∧ P t ∧ u.Stores P ∧
      outcome (load ⟨.eager, fs⟩ ref) { s with engine := .eager } =
        (.ok (.frame t), { u with engine := .eager }) ∧
      outcome (load ⟨.deferred, fs⟩ ref) { s with engine := .deferred } =
        (.ok (.plan p), { u with engine := .deferred }) := by
  obtain ⟨hu, hloaded⟩ := h.loadTable ref.source (if ref.isAliased then some ref.label else none)
  simp only [load, outcome_bind, outcome_liftM, Session.outcome_loadTable_engine]
  rcases hload : outcome (Session.loadTable ref.source
      (if ref.isAliased then some ref.label else none) none) s with ⟨f | r, u⟩
  · exact .inl ⟨f, _, _, rfl, rfl⟩
  · rw [hload] at hu hloaded
    obtain ⟨t, hr, ht⟩ := hloaded r rfl
    refine .inr ⟨t, r.toPlan, u, hr, ht, hu, ?_, rfl⟩
    simp only [Engine.adopt, Engine.apply, hr.collect, ok_bind]
    rfl

/-- A join fails alike on both engines, or the joined table goes on with the same session. -/
theorem checkedStep_join_alike (h : s.Stores fun t => t.IsBasic ∧ t.HasOrdinaryNames)
    {t : Table} {p : Plan} (hp : p.StandsFor t) (ht : t.IsBasic) (ho : t.HasOrdinaryNames)
    (ref : TableRef) (mode : JoinMode) (on : List JoinKey) :
    (∃ f, ∃ u u' : Session,
      outcome (checkedStep ⟨.eager, fs⟩ (.join ref mode on) (some (.plain (.frame t))))
        { s with engine := .eager } = (.error f, u) ∧
      outcome (checkedStep ⟨.deferred, fs⟩ (.join ref mode on) (some (.plain (.plan p))))
        { s with engine := .deferred } = (.error f, u')) ∨
    ∃ t' p', ∃ u : Session, (p'.StandsFor t' ∧ t'.IsBasic ∧ t'.HasOrdinaryNames) ∧
      (u.Stores fun t => t.IsBasic ∧ t.HasOrdinaryNames) ∧
      outcome (checkedStep ⟨.eager, fs⟩ (.join ref mode on) (some (.plain (.frame t))))
        { s with engine := .eager } = (.ok (.plain (.frame t')), { u with engine := .eager }) ∧
      outcome (checkedStep ⟨.deferred, fs⟩ (.join ref mode on) (some (.plain (.plan p))))
        { s with engine := .deferred } =
          (.ok (.plain (.plan p')), { u with engine := .deferred }) := by
  rcases load_alike fs h ref with ⟨f, u, u', hx, hy⟩ | ⟨right, pr, u, hpr, ⟨hr, hro⟩, hu, hx, hy⟩
  · exact .inl ⟨f, u, u', outcome_checkedStep_join_error _ mode on hx,
      outcome_checkedStep_join_error _ mode on hy⟩
  · have heager := outcome_checkedStep_join (.frame t) mode on hx
    have hdeferred := outcome_checkedStep_join (.plan p) mode on hy
    rcases joined_agree fs hp ht ho hpr hr hro ref.label mode on with
      ⟨t', p', hx, hy, hp', ht', ho'⟩ | ⟨f, hx, hy⟩
    · rw [hx] at heager
      rw [hy] at hdeferred
      exact .inr ⟨t', p', u, ⟨hp', ht', ho'⟩, hu, heager, hdeferred⟩
    · rw [hx] at heager
      rw [hy] at hdeferred
      exact .inl ⟨f, _, _, heager, hdeferred⟩

/-- Queries over tables that are joined end alike if what comes behind the joins does. -/
theorem collected_joins {good : Table → Prop} {rest : List Operator}
    (hrest : ∀ {t p}, p.StandsFor t → t.IsBasic → t.HasOrdinaryNames → good t → ∀ i s s',
      collected ⟨.eager, fs⟩ i (some (.plain (.frame t))) rest s =
        collected ⟨.deferred, fs⟩ i (some (.plain (.plan p))) rest s')
    {joins : List (TableRef × JoinMode × List JoinKey)} {t : Table} {p : Plan}
    (hp : p.StandsFor t) (ht : t.IsBasic) (ho : t.HasOrdinaryNames)
    (h : s.Stores fun t => t.IsBasic ∧ t.HasOrdinaryNames) (i : Nat)
    (hgood : ∀ t', collected ⟨.eager, fs⟩ i (some (.plain (.frame t)))
      (joins.map fun j => .join j.1 j.2.1 j.2.2) { s with engine := .eager } = .ok t' → good t') :
    collected ⟨.eager, fs⟩ i (some (.plain (.frame t)))
        ((joins.map fun j => .join j.1 j.2.1 j.2.2) ++ rest) { s with engine := .eager } =
      collected ⟨.deferred, fs⟩ i (some (.plain (.plan p)))
        ((joins.map fun j => .join j.1 j.2.1 j.2.2) ++ rest) { s with engine := .deferred } := by
  induction joins generalizing t p s i with
  | nil => exact hrest hp ht ho (hgood t rfl) i _ _
  | cons j joins ih =>
    obtain ⟨ref, mode, on⟩ := j
    rw [List.map_cons] at hgood
    rw [List.map_cons, List.cons_append]
    rcases checkedStep_join_alike h hp ht ho ref mode on with
      ⟨f, u, u', hx, hy⟩ | ⟨t', p', u, ⟨hp', ht', ho'⟩, hu, hx, hy⟩
    · rw [collected_of_error hx, collected_of_error hy]
    · rw [collected_of_ok hx] at hgood
      rw [collected_of_ok hx, collected_of_ok hy]
      exact ih hp' ht' ho' hu (i + 1) hgood

/-- Queries end alike if what comes behind their joined tables does. -/
theorem collected_sources {q : Select} {rest : List Operator}
    (hrest : ∀ {t p}, p.StandsFor t → t.IsBasic → t.HasOrdinaryNames → P t → ∀ i s s',
      collected ⟨.eager, fs⟩ i (some (.plain (.frame t))) rest s =
        collected ⟨.deferred, fs⟩ i (some (.plain (.plan p))) rest s')
    (h : s.Stores fun t => t.IsBasic ∧ t.HasOrdinaryNames)
    (hgood : ∀ t, collected ⟨.eager, fs⟩ 0 none q.sources { s with engine := .eager } = .ok t →
      P t) :
    collected ⟨.eager, fs⟩ 0 none (q.sources ++ rest) { s with engine := .eager } =
      collected ⟨.deferred, fs⟩ 0 none (q.sources ++ rest) { s with engine := .deferred } := by
  have heager := outcome_step_load ⟨.eager, fs⟩ q.base { s with engine := .eager }
  have hdeferred := outcome_step_load ⟨.deferred, fs⟩ q.base { s with engine := .deferred }
  rw [Select.sources, List.cons_append]
  rcases load_alike fs h q.base with ⟨f, u, u', hx, hy⟩ | ⟨t, p, u, hp, ⟨ht, ho⟩, hu, hx, hy⟩
  · rw [hx] at heager
    rw [hy] at hdeferred
    exact collected_fails heager hdeferred
  · rw [hx] at heager
    rw [hy] at hdeferred
    have heager : outcome (checkedStep ⟨.eager, fs⟩ (.load q.base) none)
        { s with engine := .eager } = (.ok (.plain (.frame t)), { u with engine := .eager }) :=
      outcome_checkedStep_eq heager
    have hdeferred : outcome (checkedStep ⟨.deferred, fs⟩ (.load q.base) none)
        { s with engine := .deferred } = (.ok (.plain (.plan p)), { u with engine := .deferred }) := by
      rw [outcome_checkedStep_eq hdeferred, ok_bind, hp.checked rfl]
    rw [Select.sources, collected_of_ok heager] at hgood
    rw [collected_of_ok heager, collected_of_ok hdeferred]
    exact collected_joins hrest hp ht ho hu 1 hgood

end Setting

/-- A query that computes nothing beside reductions of its columns gives the same on both engines:
the same table, or the same fault at the same operator. The tables, at hand or put off, are basic,
and none of their columns is named as helpers are; the joined table has columns of the types that
the query needs, and its rows can be counted with 32 bits. -/
theorem engines_agree {fs : Functions} {text : String} {q : Select} {s : Session}
    (hq : Select.parse text = .ok q)
    (hs : s.Stores fun t => t.IsBasic ∧ ∀ name ∈ t.names, ¬Name.BeginsAsHelper name)
    (hfits : ∀ t, (outcome (executeCollect fs q.sources) { s with engine := .eager }).1 = .ok t →
      q.Fits t.schema ∧ t.height < UInt32.size) :
    (outcome (runCollect fs text) { s with engine := .eager }).1 =
      (outcome (runCollect fs text) { s with engine := .deferred }).1 := by
  obtain ⟨-, hitems⟩ := Select.parts_of_parse hq
  have hrun (e : Engine) : (outcome (runCollect fs text) { s with engine := e }).1 =
      Setting.collected ⟨e, fs⟩ 0 none q.operators { s with engine := e } := by
    have hops : operatorsOf text = .ok q.operators := by rw [operatorsOf, hq]
    rw [← Setting.outcome_collected fs q.operators { s with engine := e }, runCollect, hops]
    rfl
  have hstores : s.Stores fun t => t.IsBasic ∧ t.HasOrdinaryNames := by
    refine ⟨hs.loaders, fun x hx => ?_⟩
    obtain ⟨t, hstands, ht, hnames⟩ := hs.tables x hx
    exact ⟨t, hstands, ht, fun name hname => Name.isOrdinary_of_not_begins (hnames name hname)⟩
  rw [hrun .eager, hrun .deferred, q.operators_eq]
  simp only [Setting.outcome_collected] at hfits
  refine Setting.collected_sources (fun hp ht ho hgood i s s' => ?_) hstores hfits
  exact Setting.collected_filter hitems hp ht ho hgood.2 hgood.1 i

/-- A session with goods at hand, and their sales put off. -/
def market : Session :=
  { Session.new with
    tables := [
      ("goods", .frame ⟨[⟨"id", .int64, [Scalar.int 1, .int 2, .int 3].map Scalar.cell⟩,
        ⟨"kind", .str, [Scalar.str "tea", .null, .str "tea"].map Scalar.cell⟩]⟩),
      ("sales", .plan (.scan ⟨[⟨"item", .int64, [Scalar.int 1, .int 1, .int 2].map Scalar.cell⟩,
        ⟨"paid", .int64, [Scalar.int 5, .null, .int 7].map Scalar.cell⟩,
        ⟨"sent", .bool, [Scalar.bool true, .null, .bool false].map Scalar.cell⟩]⟩))] }

/-- The sales by kind of goods, with those of goods of no kind and goods without sales. -/
def salesByKind : String :=
  "SELECT kind, COUNT(*) AS n, SUM(paid) FROM goods LEFT JOIN sales ON id = item" ++
    " WHERE NOT paid IN (6, id) OR sent IS NULL GROUP BY kind ORDER BY n DESC LIMIT 2"

theorem market_stores : market.Stores fun t =>
    t.IsBasic ∧ ∀ name ∈ t.names, ¬Name.BeginsAsHelper name := by
  refine ⟨rfl, ?_⟩
  simp only [market, List.mem_cons, List.not_mem_nil, or_false]
  rintro x (rfl | rfl)
  · refine ⟨_, .scan _, ⟨by decide, ?_, ?_⟩, ?_⟩
    · unfold Table.IsRectangular
      decide
    · simp only [List.mem_cons, List.not_mem_nil, or_false, forall_eq_or_imp, forall_eq]
      exact ⟨Column.isBasic_of_scalars rfl (by decide), Column.isBasic_of_scalars rfl (by decide)⟩
    · simp only [Name.BeginsAsHelper]
      decide
  · refine ⟨_, .scan _, ⟨by decide, ?_, ?_⟩, ?_⟩
    · unfold Table.IsRectangular
      decide
    · simp only [List.mem_cons, List.not_mem_nil, or_false, forall_eq_or_imp, forall_eq]
      exact ⟨Column.isBasic_of_scalars rfl (by decide), Column.isBasic_of_scalars rfl (by decide),
        Column.isBasic_of_scalars rfl (by decide)⟩
    · simp only [Name.BeginsAsHelper]
      decide

theorem market_engines_agree :
    (outcome (runCollect .builtin salesByKind) { market with engine := .eager }).1 =
        (outcome (runCollect .builtin salesByKind) { market with engine := .deferred }).1 ∧
      ((outcome (runCollect .builtin salesByKind) market).1.toOption.map Table.names) =
        some ["kind", "n", "SUM(paid)"] := by
  have hall : (Select.parse salesByKind).isOk = true ∧
      (Select.parse salesByKind).toOption.all (fun q =>
        (outcome (executeCollect .builtin q.sources)
          { market with engine := .eager }).1.toOption.all fun t =>
            q.fits t.schema && decide (t.height < UInt32.size)) = true ∧
      ((outcome (runCollect .builtin salesByKind) market).1.toOption.map Table.names) =
        some ["kind", "n", "SUM(paid)"] := by
    decide +kernel
  obtain ⟨hparsed, hfits, hnames⟩ := hall
  obtain ⟨q, hq⟩ := exists_eq_ok hparsed
  rw [hq] at hfits
  refine ⟨engines_agree hq market_stores fun t ht => ?_, hnames⟩
  change (outcome _ _).1.toOption.all _ = true at hfits
  rw [ht] at hfits
  obtain ⟨hfits, hheight⟩ := Bool.and_eq_true_iff.1 hfits
  exact ⟨Select.fits_sound hfits, of_decide_eq_true hheight⟩

/-- Two columns of different types whose names differ in the number of equal signs. -/
def unpaired : Session :=
  { Session.new with
    tables := [("T", .frame ⟨[⟨"a=b", .int64, [Scalar.int 1].map Scalar.cell⟩,
      ⟨"a==b", .str, [Scalar.str "x"].map Scalar.cell⟩]⟩)] }

/-- The signs in a quoted name are paired as well: a condition that is typed as it is written reads
another column and loses its type. The eager engine then fails at the filter, and the deferred one,
which is promised a truth value, only when the table is made. -/
theorem quoted_signs_part_engines :
    ((Expr.parse "`a=b` = 1").toOption.bind fun e =>
        e.type? [("a=b", .int64), ("a==b", .str)]) = some .bool ∧
      ((Expr.parse (Sql.pairSigns "`a=b` = 1")).toOption.bind fun e =>
        e.type? [("a=b", .int64), ("a==b", .str)]) = none ∧
      ((outcome (runCollect .builtin "SELECT `a=b` FROM T WHERE `a=b` = 1")
        { unpaired with engine := .eager }).1.map Table.names).mapError
          (fun f => (f.fault.kind, f.stage)) =
            .error (.expression, some ⟨1, "FILTER `a=b` = 1"⟩) ∧
      ((outcome (runCollect .builtin "SELECT `a=b` FROM T WHERE `a=b` = 1")
        { unpaired with engine := .deferred }).1.map Table.names).mapError
          (fun f => (f.fault.kind, f.stage)) = .error (.execution, none) := by
  decide +kernel

end TableQuery
