import TableQuery.Proofs.Orderly.Operators
import TableQuery.Proofs.Reading.Clauses
import TableQuery.Proofs.Reading.Places

/-!
# The order of operators

A run goes through phases: no table yet, a plain table, a grouped one. Each operator may run in some
phases only. A query text gives its operators in one fixed order, which leads from no table to a
plain one; so a run of them never meets a fault that says they stand in a wrong order, whatever is
in the session and whichever engine is in use. Other faults can still end the run.
-/

namespace TableQuery

/-- What the runner has before an operator: nothing, a plain table, or a grouped one. -/
inductive Phase where
  | start
  | plain
  | grouped
  deriving DecidableEq, Repr, Inhabited

namespace Phase

/-- The phase of a runner. -/
def of (input : Option Working) : Phase :=
  match input with
  | none => .start
  | some w => if w.keys.isNone then .plain else .grouped

/-- The phase behind an operator that may run in a phase. -/
def next (p : Phase) (op : Operator) : Option Phase :=
  match p, op with
  | .start, .load _ => some .plain
  | .plain, .join .. => some .plain
  | .plain, .project _ => some .plain
  | .plain, .filter _ => some .plain
  | .plain, .group .. => some .grouped
  | .plain, .order _ => some .plain
  | .plain, .limit .. => some .plain
  | .grouped, .project _ => some .plain
  | _, _ => none

/-- The phase behind several operators. -/
def after (p : Phase) : List Operator → Option Phase
  | [] => some p
  | op :: ops => (p.next op).bind fun q => q.after ops

theorem after_append (p : Phase) (ops rest : List Operator) :
    p.after (ops ++ rest) = (p.after ops).bind fun q => q.after rest := by
  induction ops generalizing p with
  | nil => rfl
  | cons op ops ih =>
    simp only [List.cons_append, after]
    cases p.next op with
    | none => rfl
    | some q => exact ih q

@[simp]
theorem of_plain (r : Relation) : of (some (.plain r)) = .plain :=
  rfl

theorem keys_of_plain {w : Working} (h : of (some w) = .plain) : w.keys = none := by
  simpa [of] using h

end Phase

/-- The operators that give the columns of a result. Without a selection all columns stay; a
grouping is followed at once by the selection of its own items. -/
inductive Selection : List Operator → Prop where
  | all : Selection []
  | plain (items : List Item) : Selection [.project items]
  | grouped (keys items : List Item) : Selection [.group keys items, .project items]

/-- The order of the clauses of a query: a load, joins that have keys, at most one filter, a
selection, at most one order and at most one limit. -/
def InClauseOrder (ops : List Operator) : Prop :=
  ∃ (table : TableRef) (joins : List (TableRef × JoinMode × List JoinKey))
    (condition : Option String) (selection : List Operator) (order : Option (List OrderItem))
    (window : Option (UInt64 × UInt64)),
    (∀ j ∈ joins, j.2.2 ≠ []) ∧ Selection selection ∧
    ops = .load table :: (joins.map (fun (t, mode, on) => .join t mode on) ++
      (condition.map Operator.filter).toList ++ selection ++ (order.map Operator.order).toList ++
      (window.map fun (offset, count) => .limit offset count).toList)

/-- The operators of what is read stand in the order of its clauses. -/
theorem Select.inClauseOrder {q : Select} (hjoins : ∀ j ∈ q.joins, j.2.2 ≠ [])
    (hkeys : q.keys.isSome → q.items.isSome) : InClauseOrder q.operators := by
  refine ⟨q.base, q.joins, q.condition,
    (q.groupKeys.map fun keys => Operator.group keys (q.items.getD [])).toList ++
      (q.items.map Operator.project).toList, q.order, q.window, hjoins, ?_, ?_⟩
  · cases hi : q.items with
    | none =>
      have none_grouped : q.groupKeys = none := by
        have hk : q.keys = none := by simpa [hi] using hkeys
        simp [groupKeys, hk, hi]
      rw [none_grouped]
      exact .all
    | some items =>
      cases q.groupKeys with
      | none => exact .plain items
      | some keys => exact .grouped keys items
  · simp [operators]

/-! ## Runs -/

namespace Setting

variable {c : Setting}

/-- A group leaves keys behind, by which the next phase is known. -/
theorem isSome_keys_of_group {w w' : Working} {keys projection : List Item}
    (h : c.group w keys projection = .ok w') : w'.keys.isSome := by
  obtain ⟨r, -, h⟩ := bind_eq_ok.1 h
  obtain ⟨columns, -, h⟩ := bind_eq_ok.1 h
  obtain ⟨resolved, -, h⟩ := bind_eq_ok.1 h
  obtain ⟨_, -, h⟩ := bind_eq_ok.1 h
  dsimp only at h
  split at h
  · cases h
    rfl
  · obtain ⟨r', -, h⟩ := bind_eq_ok.1 h
    cases h
    rfl

/-- An operator that may run in a phase does not fail there for the order of operators, and leads to
the phase behind it. -/
theorem settles_step (hfs : c.functions.AreOrderly) {op : Operator} {input : Option Working}
    {p : Phase} (h : (Phase.of input).next op = some p) :
    Settles Fault.isOrder (c.step op input) fun w => Phase.of (some w) = p := by
  have hbad (f : Fault) (hf : f.isOrder = true) : f.isOfRunner = true :=
    Fault.isOfRunner_of_isOrder hf
  have hplain (w : Working) (hw : w.keys = none) : Phase.of (some w) = .plain := by
    simp [Phase.of, hw]
  cases input with
  | none =>
    cases op with
    | load t =>
      cases h
      have hload := (settles_load (c := c) t).mono fun f hf =>
        Fault.isOfSequence_of_isOfRunner (hbad f hf)
      exact .bind hload fun r _ => .pure rfl
    | _ => cases h
  | some w =>
    cases hk : w.keys with
    | none =>
      have hw : ∀ what, FreeOf Fault.isOrder (w.intoPlain what) :=
        w.freeOf_intoPlain_of_keys hk
      rw [hplain w hk] at h
      cases op with
      | load t => cases h
      | join t mode on =>
        cases h
        exact (settles_join hbad hw t mode on).imp hplain
      | project items =>
        cases h
        exact (isPlain_project hbad hfs items).settles.imp hplain
      | filter condition =>
        cases h
        exact (isPlain_filter hbad hw hfs condition).settles.imp hplain
      | group keys projection =>
        cases h
        refine .lift (freeOf_group hbad hw hfs keys projection) fun w' hw' => ?_
        simp [Phase.of, Option.isNone_eq_false_iff.2 (isSome_keys_of_group hw')]
      | order items =>
        cases h
        exact (isPlain_order hbad hw hfs items).settles.imp hplain
      | limit offset count =>
        cases h
        exact (settles_limit hbad hw offset count).imp hplain
    | some keys =>
      have hgrouped : Phase.of (some w) = .grouped := by simp [Phase.of, hk]
      rw [hgrouped] at h
      cases op with
      | project items =>
        cases h
        exact (isPlain_project hbad hfs items).settles.imp hplain
      | _ => cases h

/-- Looking at the columns of a result changes nothing of that. -/
theorem settles_checkedStep (hfs : c.functions.AreOrderly) {op : Operator}
    {input : Option Working} {p : Phase} (h : (Phase.of input).next op = some p) :
    Settles Fault.isOrder (c.checkedStep op input) fun w => Phase.of (some w) = p := by
  have hnames (w : Working) : FreeOf Fault.isOrder w.table.names :=
    w.table.orderly_names.runner.mono fun _ => Fault.isOfRunner_of_isOrder
  exact .bind (settles_step hfs h) fun w hw =>
    .lift_bind (hnames w) fun _ => .pure hw

/-- A run of operators that lead from one phase to another one fails for other reasons than their
order, or ends in that phase. -/
theorem orderly_executeFrom (hfs : c.functions.AreOrderly) {ops : List Operator}
    {input : Option Working} {p : Phase} (h : (Phase.of input).after ops = some p)
    (hp : p ≠ .start) (i : Nat) (s : Session) :
    (∀ f, (outcome (c.executeFrom i input ops) s).1 = .error f → f.fault.isOrder = false) ∧
      ∀ w, (outcome (c.executeFrom i input ops) s).1 = .ok w → Phase.of (some w) = p := by
  induction ops generalizing input i s with
  | nil =>
    cases h
    cases input with
    | none => exact absurd rfl hp
    | some w =>
      constructor
      · intro f hf
        cases hf
      · intro w' hw'
        cases hw'
        rfl
  | cons op ops ih =>
    obtain ⟨q, hq, hrest⟩ := Option.bind_eq_some_iff.1 h
    obtain ⟨horder, hphase⟩ := settles_checkedStep hfs hq s
    rw [outcome_executeFrom_cons]
    rcases hstep : outcome (c.checkedStep op input) s with ⟨f | w, s'⟩
    · constructor
      · intro g hg
        cases hg
        have hf : f.isOrder = false := horder f (by rw [hstep])
        simpa [Failure.fault] using hf
      · intro w hw
        cases hw
    · have hw : Phase.of (some w) = q := hphase w (by rw [hstep])
      exact ih (by rw [hw]; exact hrest) (i + 1) s'

end Setting

/-! ## Queries -/

theorem Phase.after_joins (joins : List (TableRef × JoinMode × List JoinKey)) :
    Phase.plain.after (joins.map fun (t, mode, on) => .join t mode on) = some .plain := by
  induction joins with
  | nil => rfl
  | cons j joins ih => exact ih

/-- Operators in the order of clauses lead from no table to a plain one. -/
theorem InClauseOrder.after_start {ops : List Operator} (h : InClauseOrder ops) :
    Phase.start.after ops = some .plain := by
  obtain ⟨table, joins, condition, selection, order, window, -, hselection, rfl⟩ := h
  have hjoins := Phase.after_joins joins
  have hfilter : Phase.plain.after (condition.map Operator.filter).toList = some .plain := by
    cases condition <;> rfl
  have hselect : Phase.plain.after selection = some .plain := by
    cases hselection <;> rfl
  have horder : Phase.plain.after (order.map Operator.order).toList = some .plain := by
    cases order <;> rfl
  have hwindow : Phase.plain.after
      (window.map fun (offset, count) => Operator.limit offset count).toList = some .plain := by
    cases window <;> rfl
  change Phase.plain.after _ = _
  simp only [Phase.after_append, hjoins, hfilter, hselect, horder, hwindow, Option.bind_some]

/-- Operators in the order of clauses give a plain table or fail for other reasons than their
order. -/
theorem orderly_executePlain {fs : Functions} (hfs : fs.AreOrderly) {ops : List Operator}
    (h : InClauseOrder ops) (s : Session) (f : Failure)
    (hf : (outcome (executePlain fs ops) s).1 = .error f) : f.fault.isOrder = false := by
  have hphases : (Phase.of none).after ops = some .plain := h.after_start
  have hrun := Setting.orderly_executeFrom (c := ⟨s.engine, fs⟩) hfs hphases (by decide) 0 s
  rw [executePlain, outcome_bind, outcome_execute] at hf
  rcases hout : outcome (Setting.executeFrom ⟨s.engine, fs⟩ 0 none ops) s with ⟨g | w, s'⟩
  · rw [hout] at hf hrun
    exact hrun.1 f (by simpa using hf)
  · rw [hout] at hf hrun
    have hw := Phase.keys_of_plain (hrun.2 w rfl)
    simp [Working.intoPlain, hw] at hf

/-- A query that is read from a text has keys in its joins, and items if it has group keys. -/
theorem Select.parts_of_parse {text : String} {q : Select} (h : Select.parse text = .ok q) :
    (∀ j ∈ q.joins, j.2.2 ≠ []) ∧ (q.keys.isSome → q.items.isSome) := by
  obtain ⟨tokens, -, hselect⟩ := Select.select_of_parse h
  obtain ⟨-, -, -, -, hjoins, -, -, -, -, hstar⟩ := Sql.readsClauses_of_select hselect
  exact ⟨((Sql.keeps_joinsFrom _).leaves List.suffix_rfl hjoins).holds, hstar⟩

/-- A query text gives operators in the order of clauses, and so their run never fails for their
order: not on any session, with any tables, loaders and settings, nor on either engine. -/
theorem query_runs_in_clause_order {text : String} {q : Select} (h : Select.parse text = .ok q) :
    InClauseOrder q.operators ∧
      ∀ s f, (outcome (executePlain .builtin q.operators) s).1 = .error f →
        f.fault.isOrder = false := by
  obtain ⟨hjoins, hkeys⟩ := Select.parts_of_parse h
  have horder := Select.inClauseOrder hjoins hkeys
  exact ⟨horder, orderly_executePlain Functions.areOrderly_builtin horder⟩

/-- The query of a grouping with an order and a limit is such a text. -/
theorem grouping_runs_in_clause_order :
    ∃ q, Select.parse "SELECT k, SUM(x) FROM t GROUP BY k ORDER BY k LIMIT 3" = .ok q ∧
      InClauseOrder q.operators ∧
      ∀ s f, (outcome (executePlain .builtin q.operators) s).1 = .error f →
        f.fault.isOrder = false := by
  obtain ⟨q, hq⟩ := exists_eq_ok
    (x := Select.parse "SELECT k, SUM(x) FROM t GROUP BY k ORDER BY k LIMIT 3")
    (by decide +kernel)
  exact ⟨q, hq, query_runs_in_clause_order hq⟩

end TableQuery
