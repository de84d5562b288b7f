import TableQuery.Proofs.Success
import TableQuery.Session.Pipeline

/-!
# What a run does to its session

An operation on a session is a function from the session to a result and the session it leaves. The
equations below carry the operations through that reading, one for each way in which operations are
put together, so that a run can be followed operator by operator.
-/

namespace TableQuery

section

variable {ε ε' α β : Type}

/-- The result of an operation on a session, and the session it leaves. -/
def outcome (m : ExceptT ε (StateM Session) α) (s : Session) : Except ε α × Session :=
  m.run.run s

@[simp]
theorem outcome_pure (a : α) (s : Session) :
    outcome (pure a : ExceptT ε (StateM Session) α) s = (.ok a, s) :=
  rfl

@[simp]
theorem outcome_liftM (x : Except ε α) (s : Session) :
    outcome (liftM x : ExceptT ε (StateM Session) α) s = (x, s) := by
  cases x <;> rfl

@[simp]
theorem outcome_get (s : Session) :
    outcome (get : ExceptT ε (StateM Session) Session) s = (.ok s, s) :=
  rfl

@[simp]
theorem outcome_modify (f : Session → Session) (s : Session) :
    outcome (modify f : ExceptT ε (StateM Session) PUnit) s = (.ok ⟨⟩, f s) :=
  rfl

/-- A fault ends a sequence of operations; otherwise the second one goes on from where the first
one left the session. -/
@[simp]
theorem outcome_bind (m : ExceptT ε (StateM Session) α) (f : α → ExceptT ε (StateM Session) β)
    (s : Session) :
    outcome (m >>= f) s =
      match outcome m s with
      | (.ok a, s') => outcome (f a) s'
      | (.error e, s') => (.error e, s') := by
  change (ExceptT.bindCont f (outcome m s).1) (outcome m s).2 = _
  rcases outcome m s with ⟨_ | a, s'⟩ <;> rfl

@[simp]
theorem outcome_adapt (g : ε → ε') (m : ExceptT ε (StateM Session) α) (s : Session) :
    outcome (m.adapt g) s = ((outcome m s).1.mapError g, (outcome m s).2) :=
  rfl

theorem outcome_mapM_cons (f : α → ExceptT ε (StateM Session) β) (x : α) (xs : List α)
    (s : Session) :
    outcome ((x :: xs).mapM f) s =
      match outcome (f x) s with
      | (.ok y, s') => ((outcome (xs.mapM f) s').1.map (y :: ·), (outcome (xs.mapM f) s').2)
      | (.error e, s') => (.error e, s') := by
  rw [List.mapM_cons, outcome_bind]
  rcases outcome (f x) s with ⟨_ | y, s'⟩
  · rfl
  · dsimp only
    rw [outcome_bind]
    rcases outcome (xs.mapM f) s' with ⟨_ | ys, s''⟩ <;> rfl

end

namespace Setting

variable (c : Setting)

@[simp]
theorem outcome_executeFrom_nil_some (i : Nat) (w : Working) (s : Session) :
    outcome (c.executeFrom i (some w) []) s = (.ok w, s) :=
  rfl

@[simp]
theorem outcome_executeFrom_nil_none (i : Nat) (s : Session) :
    outcome (c.executeFrom i none []) s = (.error (.plain (.execution .noOperators)), s) :=
  rfl

/-- A run carries out its first operator; a fault there is put in a stage and ends the
run. -/
theorem outcome_executeFrom_cons (i : Nat) (current : Option Working) (op : Operator)
    (ops : List Operator) (s : Session) :
    outcome (c.executeFrom i current (op :: ops)) s =
      match outcome (c.checkedStep op current) s with
      | (.ok w, s') => outcome (c.executeFrom (i + 1) (some w) ops) s'
      | (.error f, s') => (.error (.execution (.stage ⟨i, op.text⟩ f)), s') := by
  simp only [executeFrom, outcome_bind, outcome_adapt]
  rcases outcome (c.checkedStep op current) s with ⟨_ | w, s'⟩ <;> rfl

/-- A checked step looks at the columns of what the step gives. -/
theorem outcome_checkedStep (op : Operator) (input : Option Working) (s : Session) :
    outcome (c.checkedStep op input) s =
      match outcome (c.step op input) s with
      | (.ok w, s') => (w.table.names.map fun _ => w, s')
      | (.error f, s') => (.error f, s') := by
  simp only [checkedStep, outcome_bind, outcome_liftM]
  rcases outcome (c.step op input) s with ⟨_ | w, s'⟩
  · rfl
  · cases hn : w.table.names <;> simp [Except.map, hn]

/-- The first operator loads its table. -/
theorem outcome_step_load (t : TableRef) (s : Session) :
    outcome (c.step (.load t) none) s =
      match outcome (c.load t) s with
      | (.ok r, s') => (.ok (.plain r), s')
      | (.error f, s') => (.error f, s') := by
  simp only [step, outcome_bind]
  rcases outcome (c.load t) s with ⟨_ | r, s'⟩ <;> rfl

/-- What a join makes of two tables. -/
def joined (left right : Relation) (label : String) (mode : JoinMode) (on : List JoinKey) :
    Except Fault Relation := do
  let names ← left.names
  let names' ← right.names
  let plan ← JoinPlan.ofKeys mode label on names names'
  c.engine.join plan left right

/-- A join loads its table and then makes one of the two. -/
theorem outcome_join {w : Working} (hw : w.keys = none) (t : TableRef) (mode : JoinMode)
    (on : List JoinKey) (s : Session) :
    outcome (c.join w t mode on) s =
      match outcome (c.load t) s with
      | (.ok r, s') => ((c.joined w.table r t.label mode on).map .plain, s')
      | (.error f, s') => (.error f, s') := by
  simp only [join, joined, Working.intoPlain, hw, outcome_bind, outcome_liftM, outcome_pure]
  rcases outcome (c.load t) s with ⟨_ | r, s'⟩
  · rfl
  dsimp only
  cases w.table.names with
  | error f => rfl
  | ok names =>
    simp only [ok_bind]
    cases r.names with
    | error f => rfl
    | ok names' =>
      simp only [ok_bind]
      cases JoinPlan.ofKeys mode t.label on names names' with
      | error f => rfl
      | ok plan =>
        simp only [ok_bind]
        cases c.engine.join plan w.table r <;> rfl

end Setting

@[simp]
theorem outcome_execute (fs : Functions) (ops : List Operator) (s : Session) :
    outcome (execute fs ops) s = outcome (Setting.executeFrom ⟨s.engine, fs⟩ 0 none ops) s := by
  simp [execute]

/-- The table that a run ends with is taken if it is not grouped, and made. -/
theorem outcome_executeCollect (fs : Functions) (ops : List Operator) (s : Session) :
    outcome (executeCollect fs ops) s =
      match outcome (Setting.executeFrom ⟨s.engine, fs⟩ 0 none ops) s with
      | (.ok w, s') => (w.intoPlain "result" >>= Relation.collect, s')
      | (.error f, s') => (.error f, s') := by
  simp only [executeCollect, executePlain, outcome_bind, outcome_execute, outcome_liftM]
  rcases outcome (Setting.executeFrom ⟨s.engine, fs⟩ 0 none ops) s with ⟨_ | w, s'⟩
  · rfl
  · cases hw : w.intoPlain "result" <;> simp [hw]

end TableQuery
