import TableQuery.Proofs.Run

/-!
# Runs, step by step

A run is carried out operator by operator, each on the table and the session that the one before it
leaves. Runs are put together and cut apart at every place, so a run gets through all its operators,
or there is one operator at which it stops and behind which nothing is looked at. What a property of
runs needs is then shown for one step, of which there is one kind for each operator.
-/

namespace TableQuery

section

variable {ε α β : Type} {s s' : Session}

/-- Operations in sequence succeed exactly if the second one does on what the first one gives. -/
theorem outcome_bind_eq_ok {m : ExceptT ε (StateM Session) α}
    {f : α → ExceptT ε (StateM Session) β} {b : β} :
    outcome (m >>= f) s = (.ok b, s') ↔
      ∃ a s₁, outcome m s = (.ok a, s₁) ∧ outcome (f a) s₁ = (.ok b, s') := by
  rw [outcome_bind]
  rcases outcome m s with ⟨e | a, s₁⟩ <;> simp

/-- A computation that knows nothing of sessions leaves the session. -/
theorem outcome_liftM_eq_ok {x : Except ε α} {a : α} :
    outcome (liftM x : ExceptT ε (StateM Session) α) s = (.ok a, s') ↔ x = .ok a ∧ s = s' := by
  rw [outcome_liftM, Prod.mk.injEq]

end

namespace Working

variable {w : Working} {r : Relation}

theorem intoPlain_eq_ok {what : String} :
    w.intoPlain what = .ok r ↔ w.keys = none ∧ w.table = r := by
  unfold intoPlain
  cases w.keys <;> simp

end Working

namespace Setting

/-- What a successful step does: it takes a table from the session, or makes another table of the
one it is given and leaves the session alone. -/
inductive Steps (c : Setting) : Option Working → Session → Operator → Working → Session → Prop where
  | load {t : TableRef} {r : Relation} {s s' : Session}
      (loaded : outcome (c.load t) s = (.ok r, s')) : Steps c none s (.load t) (.plain r) s'
  | join {t : TableRef} {mode : JoinMode} {on : List JoinKey} {w : Working} {r table : Relation}
      {s s' : Session} (plain : w.keys = none) (loaded : outcome (c.load t) s = (.ok r, s'))
      (made : c.joined w.table r t.label mode on = .ok table) :
      Steps c (some w) s (.join t mode on) (.plain table) s'
  | project {items : List Item} {w w' : Working} {s : Session} (made : c.project w items = .ok w') :
      Steps c (some w) s (.project items) w' s
  | filter {condition : String} {w w' : Working} {s : Session}
      (made : c.filter w condition = .ok w') : Steps c (some w) s (.filter condition) w' s
  | group {keys projection : List Item} {w w' : Working} {s : Session}
      (made : c.group w keys projection = .ok w') :
      Steps c (some w) s (.group keys projection) w' s
  | order {items : List OrderItem} {w w' : Working} {s : Session}
      (made : c.order w items = .ok w') : Steps c (some w) s (.order items) w' s
  | limit {offset count : UInt64} {w : Working} {table : Relation} {s : Session}
      (plain : w.keys = none) (made : c.engine.window offset count w.table = .ok table) :
      Steps c (some w) s (.limit offset count) (.plain table) s

/-- The operators are carried out one after the other, from the table and the session at the
beginning to those at the end. -/
inductive Runs (c : Setting) :
    Option Working → Session → List Operator → Option Working → Session → Prop where
  | nil (input : Option Working) (s : Session) : Runs c input s [] input s
  | cons {input output : Option Working} {s s₁ s' : Session} {op : Operator} {w : Working}
      {ops : List Operator} (first : outcome (c.checkedStep op input) s = (.ok w, s₁))
      (rest : Runs c (some w) s₁ ops output s') : Runs c input s (op :: ops) output s'

/-- The operators in front are carried out, and the next one fails in its own right. -/
def StopsAt (c : Setting) (input : Option Working) (s : Session) (before : List Operator)
    (op : Operator) (f : Fault) (s' : Session) : Prop :=
  ∃ w s₁, c.Runs input s before w s₁ ∧ outcome (c.checkedStep op w) s₁ = (.error f, s')

variable {c : Setting} {input output : Option Working} {s s' : Session} {op : Operator}
  {w : Working} {f : Fault} {ops before after : List Operator}

/-- A step that succeeds is one of these. -/
theorem steps_of_outcome (h : outcome (c.step op input) s = (.ok w, s')) :
    c.Steps input s op w s' := by
  cases input with
  | none =>
    cases op with
    | load t =>
      obtain ⟨r, s₁, hload, h⟩ := outcome_bind_eq_ok.1 h
      cases h
      exact .load hload
    | _ => cases h
  | some v =>
    cases op with
    | load t => cases h
    | join t mode on =>
      change outcome (c.join v t mode on) s = _ at h
      obtain ⟨left, s₁, hplain, -⟩ := outcome_bind_eq_ok.1 h
      obtain ⟨hv, -⟩ := Working.intoPlain_eq_ok.1 (outcome_liftM_eq_ok.1 hplain).1
      rw [outcome_join c hv] at h
      rcases hload : outcome (c.load t) s with ⟨f | r, s₂⟩
      · rw [hload] at h
        cases h
      · rw [hload] at h
        obtain ⟨hmade, rfl⟩ := Prod.mk.inj h
        obtain ⟨table, hjoined, rfl⟩ := map_eq_ok.1 hmade
        exact .join hv hload hjoined
    | project items =>
      obtain ⟨hmade, rfl⟩ := outcome_liftM_eq_ok.1 h
      exact .project hmade
    | filter condition =>
      obtain ⟨hmade, rfl⟩ := outcome_liftM_eq_ok.1 h
      exact .filter hmade
    | group keys projection =>
      obtain ⟨hmade, rfl⟩ := outcome_liftM_eq_ok.1 h
      exact .group hmade
    | order items =>
      obtain ⟨hmade, rfl⟩ := outcome_liftM_eq_ok.1 h
      exact .order hmade
    | limit offset count =>
      obtain ⟨r, s₁, hplain, h⟩ := outcome_bind_eq_ok.1 h
      obtain ⟨hinto, rfl⟩ := outcome_liftM_eq_ok.1 hplain
      obtain ⟨hv, rfl⟩ := Working.intoPlain_eq_ok.1 hinto
      obtain ⟨table, s₂, hwindow, h⟩ := outcome_bind_eq_ok.1 h
      obtain ⟨hmade, rfl⟩ := outcome_liftM_eq_ok.1 hwindow
      cases h
      exact .limit hv hmade

/-- What a step does, it succeeds in. -/
theorem Steps.outcome_eq (h : c.Steps input s op w s') :
    outcome (c.step op input) s = (.ok w, s') := by
  cases h with
  | load loaded => rw [outcome_step_load, loaded]
  | @join t mode on v r table _ _ plain loaded made =>
    change outcome (c.join v t mode on) s = _
    rw [outcome_join c plain, loaded]
    simp only [made, map_ok]
  | project made => exact outcome_liftM_eq_ok.2 ⟨made, rfl⟩
  | filter made => exact outcome_liftM_eq_ok.2 ⟨made, rfl⟩
  | group made => exact outcome_liftM_eq_ok.2 ⟨made, rfl⟩
  | order made => exact outcome_liftM_eq_ok.2 ⟨made, rfl⟩
  | limit plain made =>
    exact outcome_bind_eq_ok.2 ⟨_, s, outcome_liftM_eq_ok.2 ⟨Working.intoPlain_eq_ok.2 ⟨plain, rfl⟩,
      rfl⟩, outcome_bind_eq_ok.2 ⟨_, s, outcome_liftM_eq_ok.2 ⟨made, rfl⟩, rfl⟩⟩

theorem Steps.checkedStep_eq (h : c.Steps input s op w s') {names : List String}
    (hnames : w.table.names = .ok names) : outcome (c.checkedStep op input) s = (.ok w, s') := by
  rw [outcome_checkedStep, h.outcome_eq]
  simp only [hnames, map_ok]

/-- A checked step is a step to a table with columns. -/
theorem steps_of_checkedStep (h : outcome (c.checkedStep op input) s = (.ok w, s')) :
    c.Steps input s op w s' ∧ ∃ names, w.table.names = .ok names := by
  obtain ⟨v, s₁, hstep, h⟩ := outcome_bind_eq_ok.1 h
  obtain ⟨names, s₂, hnames, h⟩ := outcome_bind_eq_ok.1 h
  obtain ⟨hcolumns, rfl⟩ := outcome_liftM_eq_ok.1 hnames
  cases h
  exact ⟨steps_of_outcome hstep, names, hcolumns⟩

namespace Runs

/-- A run is one of its first operators, followed by one of the others. -/
theorem append_iff : c.Runs input s (before ++ after) output s' ↔
    ∃ w s₁, c.Runs input s before w s₁ ∧ c.Runs w s₁ after output s' := by
  induction before generalizing input s with
  | nil =>
    constructor
    · intro h
      exact ⟨input, s, .nil input s, h⟩
    · rintro ⟨_, _, ⟨⟩, h⟩
      exact h
  | cons op before ih =>
    constructor
    · rintro ⟨⟩
      next first rest =>
      obtain ⟨w, s₁, hbefore, hafter⟩ := ih.1 rest
      exact ⟨w, s₁, .cons first hbefore, hafter⟩
    · rintro ⟨w, s₁, ⟨⟩, hafter⟩
      next first rest => exact .cons first (ih.2 ⟨w, s₁, rest, hafter⟩)

/-- Operators leave a table. -/
theorem exists_working (h : c.Runs input s ops output s') (hops : ops ≠ []) :
    ∃ w, output = some w := by
  induction h with
  | nil => exact absurd rfl hops
  | @cons _ output _ _ _ _ w ops _ rest ih =>
    cases ops with
    | nil =>
      cases rest
      exact ⟨w, rfl⟩
    | cons op ops => exact ih (List.cons_ne_nil op ops)

/-- What has been carried out is behind; the numbers of the operators go on. -/
theorem outcome_executeFrom (h : c.Runs input s before output s') (i : Nat) :
    outcome (c.executeFrom i input (before ++ after)) s =
      outcome (c.executeFrom (i + before.length) output after) s' := by
  induction h generalizing i with
  | nil => rfl
  | cons first _ ih =>
    rw [List.cons_append, outcome_executeFrom_cons, first]
    dsimp only
    rw [ih, List.length_cons, Nat.add_right_comm, Nat.add_assoc]

/-- A sequence that is carried out succeeds as a whole. -/
theorem outcome_execute {w : Working} {fs : Functions}
    (h : Runs ⟨s.engine, fs⟩ none s ops (some w) s') :
    outcome (execute fs ops) s = (.ok w, s') := by
  rw [TableQuery.outcome_execute, ← List.append_nil ops, h.outcome_executeFrom]
  rfl

end Runs

/-- A run that stops at an operator fails there, whatever comes behind. -/
theorem StopsAt.outcome_executeFrom (h : c.StopsAt input s before op f s') (i : Nat)
    (after : List Operator) :
    outcome (c.executeFrom i input (before ++ op :: after)) s =
      (.error (.execution (.stage ⟨i + before.length, op.text⟩ f)), s') := by
  obtain ⟨w, s₁, hbefore, hstep⟩ := h
  rw [hbefore.outcome_executeFrom, outcome_executeFrom_cons, hstep]

/-- Operators are all carried out, or there is one at which they stop. -/
theorem runs_or_stops (c : Setting) (input : Option Working) (s : Session) (ops : List Operator) :
    (∃ output s', c.Runs input s ops output s') ∨
      ∃ before op after f s', ops = before ++ op :: after ∧
        c.StopsAt input s before op f s' := by
  induction ops generalizing input s with
  | nil => exact .inl ⟨input, s, .nil input s⟩
  | cons op ops ih =>
    rcases hstep : outcome (c.checkedStep op input) s with ⟨f | w, s₁⟩
    · exact .inr ⟨[], op, ops, f, s₁, rfl, input, s, .nil input s, hstep⟩
    · rcases ih (some w) s₁ with ⟨output, s', h⟩ | ⟨before, op', after, f, s', rfl, h⟩
      · exact .inl ⟨output, s', .cons hstep h⟩
      · obtain ⟨w', s₂, hbefore, hfails⟩ := h
        exact .inr ⟨op :: before, op', after, f, s', rfl, w', s₂, .cons hstep hbefore, hfails⟩

end Setting

open Setting

variable {s s' : Session} {fs : Functions} {ops : List Operator}

/-- What succeeds has been carried out operator by operator. -/
theorem runs_of_execute {w : Working} (h : outcome (execute fs ops) s = (.ok w, s')) :
    Runs ⟨s.engine, fs⟩ none s ops (some w) s' := by
  rcases runs_or_stops ⟨s.engine, fs⟩ none s ops with
    ⟨output, s₁, hruns⟩ | ⟨before, op, after, f, s₁, rfl, hstops⟩
  · rw [outcome_execute, ← List.append_nil ops, hruns.outcome_executeFrom] at h
    cases output with
    | none => cases h
    | some w' =>
      cases h
      exact hruns
  · rw [outcome_execute, hstops.outcome_executeFrom] at h
    cases h

end TableQuery
