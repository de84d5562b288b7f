import TableQuery.Engine.Selection
import TableQuery.JoinPlan
import TableQuery.Proofs.ValueFaults
import TableQuery.Table.Join

/-!
# Faults of a sequence

Some faults say that an operator cannot be read, or that it does not go with those in front of it:
the text of a condition makes no sense, operators stand in a wrong order, or the columns of a joined
table cannot be told from those that are there already. Others say at which operator of a sequence
they come up. Only the runner of operators raises faults of order and stages, only an operator that
reads a text a fault of reading, and only the renaming of joined columns the third kind. All else in
the engines, the session, the plans and the expressions is orderly: it may fail, but never with one
of these. The functions that expressions call can be anything, so for an evaluation this is claimed
only if they are orderly themselves, as the built-in ones are.
-/

namespace TableQuery

namespace Fault

@[simp]
theorem root_root (f : Fault) : f.root.root = f.root := by
  fun_induction root f with
  | case1 place f ih => exact ih
  | case2 f hf => rw [root.eq_2 f hf]

/-- Whether a fault says, behind all stages, that operators stand in a wrong order. -/
@[simp]
def isOrder (f : Fault) : Bool :=
  match f.root with
  | .execution .noOperators => true
  | .execution .loadNotFirst => true
  | .execution (.firstNotLoad _) => true
  | .execution (.grouped _) => true
  | _ => false

/-- Whether a fault says, behind all stages, that columns of a join cannot be told apart. -/
@[simp]
def isAmbiguous (f : Fault) : Bool :=
  match f.root with
  | .join (.ambiguous ..) => true
  | _ => false

/-- Whether a fault says, behind all stages, that a text cannot be read. -/
@[simp]
def isParse (f : Fault) : Bool :=
  match f.root with
  | .parse _ => true
  | _ => false

/-- Whether a fault stands in the stage of an operator. -/
@[simp]
def isStage : Fault → Bool
  | .execution (.stage ..) => true
  | _ => false

/-- Whether only the runner of operators raises a fault. -/
@[simp]
def isOfRunner (f : Fault) : Bool :=
  f.isOrder || f.isStage

/-- Whether a fault tells an operator, or says that it cannot be read or does not go with those in
front of it. -/
@[simp]
def isOfSequence (f : Fault) : Bool :=
  f.isOfRunner || f.isAmbiguous || f.isParse

theorem isOfRunner_of_isOrder {f : Fault} (h : f.isOrder = true) : f.isOfRunner = true :=
  Bool.or_eq_true_iff.2 (.inl h)

theorem isOfRunner_of_isStage {f : Fault} (h : f.isStage = true) : f.isOfRunner = true :=
  Bool.or_eq_true_iff.2 (.inr h)

theorem isOfSequence_of_isOfRunner {f : Fault} (h : f.isOfRunner = true) :
    f.isOfSequence = true := by
  rw [isOfSequence, h, Bool.true_or, Bool.true_or]

end Fault

/-- A computation without faults of a sequence. -/
abbrev Orderly {α : Type} (x : Except Fault α) : Prop :=
  FreeOf Fault.isOfSequence x

namespace FreeOf

variable {α : Type} {bad bad' : Fault → Bool} {x : Except Fault α}

/-- What is free of more faults is free of fewer. -/
theorem mono (h : FreeOf bad' x) (hbad : ∀ f, bad f = true → bad' f = true) : FreeOf bad x := by
  intro f hf
  have hfree := h f hf
  cases hbadf : bad f with
  | false => rfl
  | true => exact absurd (hbad f hbadf) (Bool.eq_false_iff.1 hfree)

/-- What is orderly does not fail with a fault of the runner. -/
theorem runner (h : Orderly x) : FreeOf Fault.isOfRunner x :=
  h.mono fun _ => Fault.isOfSequence_of_isOfRunner

/-- What is orderly does not fail for columns that cannot be told apart. -/
theorem ambiguous (h : Orderly x) : FreeOf Fault.isAmbiguous x :=
  h.mono fun _ hf => by rw [Fault.isOfSequence, hf, Bool.or_true, Bool.true_or]

/-- What is orderly does not fail for a text that cannot be read. -/
theorem parse (h : Orderly x) : FreeOf Fault.isParse x :=
  h.mono fun _ hf => by rw [Fault.isOfSequence, hf, Bool.or_true]

end FreeOf

/-! ## Names, columns and tables -/

@[simp]
theorem Name.orderly_resolve (name : String) (columns : List String) :
    Orderly (Name.resolve name columns) := by
  unfold Name.resolve
  split <;> simp

@[simp]
theorem orderly_distinctOutputs (names : List String) : Orderly (distinctOutputs names) := by
  suffices h : ∀ seen, Orderly (distinctOutputs.go seen names) from h []
  induction names with
  | nil => simp [distinctOutputs.go]
  | cons name rest ih =>
    intro seen
    unfold distinctOutputs.go
    split
    · simp
    · exact ih _

namespace Table

@[simp]
theorem orderly_distinct (names : List String) : Orderly (distinct names) := by
  induction names with
  | nil => simp [distinct]
  | cons name rest ih =>
    unfold distinct
    split
    · simp
    · exact ih

@[simp]
theorem orderly_column (t : Table) (name : String) : Orderly (t.column name) :=
  t.freeOf_column (fun _ => rfl) name

@[simp]
theorem orderly_select (t : Table) (names : List String) : Orderly (t.select names) := by
  simp [select]

@[simp]
theorem orderly_keyCells (left right : Table) (on : List (String × String)) :
    Orderly (keyCells left right on) := by
  refine .mapM (fun (l, r) => ?_) on
  refine .bind (orderly_column left l) fun a => .bind (orderly_column right r) fun b => ?_
  split <;> simp

@[simp]
theorem orderly_join (mode : JoinMode) (on : List (String × String)) (left right : Table) :
    Orderly (join mode on left right) := by
  unfold join
  split
  refine .ite (.bind (by simp) fun _ => ?_) ?_ <;>
    exact .bind (orderly_keyCells left right on) fun _ => by simp

end Table

namespace JoinPlan

@[simp]
theorem orderly_assign (label : String) (left right : List String) (k : JoinKey) :
    Orderly (k.assign label left right) := by
  refine .bind ?_ fun (l, r) => .bind (Name.orderly_resolve l left) fun _ =>
    .map (Name.orderly_resolve r right)
  unfold JoinKey.oriented
  repeat' split
  all_goals simp

theorem orderly_ofKeys (mode : JoinMode) (label : String) (on : List JoinKey)
    (left right : List String) : Orderly (ofKeys mode label on left right) := by
  simp [ofKeys]

/-- Renaming joined columns does not fail with a fault of the runner. -/
theorem freeOf_renamedRight (p : JoinPlan) (left right : List String) :
    FreeOf Fault.isOfRunner (p.renamedRight left right) := by
  refine .mapM (fun column => .map ?_) right
  unfold renamed
  repeat' split
  all_goals simp

end JoinPlan

/-! ## Scalars and expressions -/

@[simp]
theorem Scope.orderly_admit (scope : Scope) (inAggregate : Bool) (name : String) :
    Orderly <| Scope.admit scope inAggregate name := by
  unfold Scope.admit
  split <;> simp

@[simp]
theorem Functions.orderly_resolve (name : String) (count : Nat) (fs : Functions) :
    Orderly (fs.resolve name count) := by
  unfold Functions.resolve
  split
  · simp
  · simp

@[simp]
theorem Datum.orderly_single {α : Type} (d : Datum α) : Orderly d.single :=
  d.freeOf_single rfl

/-- Values that do not go together are no matter of the sequence. -/
theorem sparesValues_isOfSequence : SparesValues Fault.isOfSequence := by
  intro f hf
  unfold Fault.isOfValues at hf
  split at hf <;> simp_all

/-- Functions whose application does not fail with a fault of a sequence. -/
def Functions.AreOrderly (fs : Functions) : Prop :=
  ∀ e ∈ fs, ∀ args, Orderly (e.2.apply args)

theorem Functions.AreOrderly.of_resolve {fs : Functions} (h : fs.AreOrderly) {name : String}
    {count : Nat} {f : ScalarFunction} (hf : fs.resolve name count = .ok f)
    (args : List (Datum Scalar)) : Orderly (f.apply args) :=
  h _ (mem_of_resolve hf) args

/-- The built-in functions are orderly. -/
theorem Functions.areOrderly_builtin : builtin.AreOrderly :=
  fun _ he => ScalarFunction.isFreeOf_of_builtin sparesValues_isOfSequence he

namespace Bound

section

variable {columns : List String} {functions : Functions} {scope : Scope}

mutual

@[simp]
theorem orderly_ofExpr (inAggregate : Bool) (e : Expr) :
    Orderly (ofExpr columns functions scope inAggregate e) := by
  cases e with
  | literal x => simp [ofExpr]
  | column name => simp [ofExpr]
  | countStar => simp [ofExpr]
  | call name args =>
    unfold ofExpr
    split
    · refine .bind (Scope.orderly_admit _ _ _) fun _ => ?_
      refine .ite (.bind (by simp) fun _ => ?_) ?_ <;>
      · refine .bind (orderly_ofExprs true args) fun xs => ?_
        split <;> simp
    · simp [orderly_ofExprs inAggregate args]
  | neg e => simp [ofExpr, orderly_ofExpr inAggregate e]
  | not e => simp [ofExpr, orderly_ofExpr inAggregate e]
  | binary op l r => simp [ofExpr, orderly_ofExpr inAggregate l, orderly_ofExpr inAggregate r]
  | isNull e negated => simp [ofExpr, orderly_ofExpr inAggregate e]
  | inList e items negated =>
    simp [ofExpr, orderly_ofExpr inAggregate e, orderly_ofExprs inAggregate items]

theorem orderly_ofExprs (inAggregate : Bool) (es : List Expr) :
    Orderly (ofExprs columns functions scope inAggregate es) := by
  cases es with
  | nil => simp [ofExprs]
  | cons e es =>
    simp [ofExprs, orderly_ofExpr inAggregate e, orderly_ofExprs inAggregate es]

end

end

@[simp]
theorem orderly_bind (e : Expr) (columns : List String) (functions : Functions) (scope : Scope) :
    Orderly (bind e columns functions scope) :=
  orderly_ofExpr false e

@[simp]
theorem orderly_ofTable (t : Table) (names : List String) : Orderly (Loaded.ofTable t names) :=
  Loaded.freeOf_ofTable (fun _ => rfl) t names

/-- The evaluation of a bound expression is orderly if the functions it calls are. -/
theorem orderly_eval (d : Loaded) (r : Rows) (x : Bound)
    (h : ∀ f ∈ x.calls, ∀ args, Orderly (f.apply args)) : Orderly (x.eval d r) :=
  freeOf_eval d r sparesValues_isOfSequence x (fun name _ => d.freeOf_values (fun _ => rfl) name) h

end Bound

end TableQuery
