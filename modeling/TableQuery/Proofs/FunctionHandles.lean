import TableQuery.Proofs.Attempts

/-!
# The handle of a session

A session knows its functions by a handle. Whatever an operation does to its session, and whether it
succeeds or fails, the handle stays. So a session goes on sharing its functions with the sessions
that have the same handle, and with no others.
-/

namespace TableQuery

section

variable {ε ε' α β : Type}

/-- An operation that leaves the handle of its session, whether it succeeds or fails. -/
def KeepsHandle (m : ExceptT ε (StateM Session) α) : Prop :=
  ∀ s, (outcome m s).2.functions = s.functions

namespace KeepsHandle

variable {m : ExceptT ε (StateM Session) α}

theorem pure (a : α) : KeepsHandle (Pure.pure a : ExceptT ε (StateM Session) α) :=
  fun _ => rfl

theorem throw (e : ε) : KeepsHandle (throw e : ExceptT ε (StateM Session) α) :=
  fun _ => rfl

theorem lift (x : Except ε α) : KeepsHandle (liftM x : ExceptT ε (StateM Session) α) := by
  intro s
  rw [outcome_liftM]

theorem get : KeepsHandle (MonadState.get : ExceptT ε (StateM Session) Session) :=
  fun _ => rfl

theorem modify {f : Session → Session} (hf : ∀ s, (f s).functions = s.functions) :
    KeepsHandle (modify f : ExceptT ε (StateM Session) PUnit) :=
  hf

theorem bind (hm : KeepsHandle m) {f : α → ExceptT ε (StateM Session) β}
    (hf : ∀ a, KeepsHandle (f a)) : KeepsHandle (m >>= f) := by
  intro s
  have hs := hm s
  rw [outcome_bind]
  rcases h : outcome m s with ⟨e | a, s'⟩ <;> rw [h] at hs
  · exact hs
  · exact (hf a s').trans hs

theorem adapt (hm : KeepsHandle m) (g : ε → ε') : KeepsHandle (m.adapt g) :=
  hm

end KeepsHandle

end

/-! ## Operations -/

namespace Session

@[simp]
theorem functions_addTable (name : String) (r : Relation) (replace : Bool) (s : Session) :
    (s.addTable name r replace).functions = s.functions := by
  unfold addTable
  split <;> rfl

theorem functions_addTables (tables : List (String × Relation)) (s : Session) :
    (s.addTables tables).functions = s.functions := by
  induction tables generalizing s with
  | nil => rfl
  | cons x tables ih => exact (ih _).trans (functions_addTable x.1 x.2 true s)

theorem functions_mergeConfig (settings : List (String × Json)) (s : Session) :
    (s.mergeConfig settings).functions = s.functions := by
  induction settings generalizing s with
  | nil => rfl
  | cons x settings ih => exact ih _

theorem functions_of_appendConfig {key : String} {x : Json} {position : Option Nat} {clear : Bool}
    {s s' : Session} (h : s.appendConfig key x position clear = .ok s') :
    s'.functions = s.functions := by
  unfold appendConfig at h
  split at h
  · cases h
    rfl
  · cases h

theorem keepsHandle_loadTable (source : String) (label : Option String)
    (replaceAlias : Option Bool) : KeepsHandle (loadTable source label replaceAlias) := by
  intro s
  rw [outcome_loadTable]
  repeat' split
  all_goals simp [removeTable]

theorem keepsHandle_registerSourceRoot (key : String) (files : Files) :
    KeepsHandle (registerSourceRoot key files) := by
  intro s
  rw [outcome_registerSourceRoot]
  split <;> rfl

end Session

theorem Attempt.keepsHandle_carryOut (a : Attempt) : KeepsHandle a.carryOut := by
  cases a with
  | load source label replaceAlias =>
    exact .bind (Session.keepsHandle_loadTable source label replaceAlias) fun _ => .pure _
  | append key x position clear =>
    intro s
    simp only [carryOut, outcome_bind, outcome_get, outcome_liftM]
    cases happend : s.appendConfig key x position clear with
    | error f => rfl
    | ok s' => exact Session.functions_of_appendConfig happend
  | sourceRoot key files => exact Session.keepsHandle_registerSourceRoot key files
  | engine e files =>
    intro s
    rw [carryOut, Session.outcome_selectEngine]
    exact Session.keepsHandle_registerSourceRoot _ files _

/-! ## Runs -/

namespace Setting

variable (c : Setting)

theorem keepsHandle_load (t : TableRef) : KeepsHandle (c.load t) :=
  .bind (Session.keepsHandle_loadTable _ _ _) fun _ => .lift _

theorem keepsHandle_step (op : Operator) (input : Option Working) :
    KeepsHandle (c.step op input) := by
  cases input with
  | none =>
    cases op with
    | load t => exact .bind (c.keepsHandle_load t) fun _ => .pure _
    | _ => exact .throw _
  | some w =>
    cases op with
    | load t => exact .throw _
    | join t mode on =>
      refine .bind (.lift _) fun left => .bind (c.keepsHandle_load t) fun right => ?_
      refine .bind (.lift _) fun ls => .bind (.lift _) fun rs => .bind (.lift _) fun plan => ?_
      exact .bind (.lift _) fun _ => .pure _
    | project | filter | group | order => exact .lift _
    | limit offset count => exact .bind (.lift _) fun _ => .bind (.lift _) fun _ => .pure _

theorem keepsHandle_executeFrom (i : Nat) (input : Option Working) (ops : List Operator) :
    KeepsHandle (c.executeFrom i input ops) := by
  induction ops generalizing i input with
  | nil =>
    cases input with
    | none => exact .throw _
    | some w => exact .pure w
  | cons op ops ih =>
    have hstep : KeepsHandle (c.checkedStep op input) :=
      .bind (c.keepsHandle_step op input) fun w => .bind (.lift _) fun _ => .pure w
    exact .bind (hstep.adapt _) fun w => ih (i + 1) (some w)

end Setting

theorem keepsHandle_execute (fs : Functions) (ops : List Operator) : KeepsHandle (execute fs ops) :=
  .bind .get fun _ => Setting.keepsHandle_executeFrom _ 0 none ops

theorem keepsHandle_executePlain (fs : Functions) (ops : List Operator) :
    KeepsHandle (executePlain fs ops) :=
  .bind (keepsHandle_execute fs ops) fun _ => .lift _

theorem keepsHandle_runCollect (fs : Functions) (query : String) :
    KeepsHandle (runCollect fs query) :=
  .bind (.lift _) fun ops => .bind (keepsHandle_executePlain fs ops) fun _ => .lift _

theorem keepsHandle_runWith (fs : Functions) (query : String) (tables : List (String × Relation))
    (settings : List (String × Json)) : KeepsHandle (runWith fs query tables settings) := by
  refine .bind (.modify fun s => ?_) fun _ => .bind (.lift _) fun ops =>
    keepsHandle_executePlain fs ops
  exact (Session.functions_mergeConfig settings _).trans (Session.functions_addTables tables s)

end TableQuery
