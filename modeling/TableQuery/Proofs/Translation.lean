import TableQuery.Formula.Lowering
import TableQuery.Function.Builtin
import TableQuery.Proofs.Success

/-!
# One meaning of being ill formed

An expression is bound to be evaluated cell by cell, and it is lowered to a formula to be computed
by columns. The two go through an expression in the same order: if one of them fails, so does the
other, with the same fault, also where an expression holds several. The only fault of their own
could be a function that has no formula over the arguments of a call; the look-up of a function
counts the arguments before, so the built-in ones have one.
-/

namespace TableQuery

/-- Both computations succeed, or they fail with the same fault. -/
def FailAlike {α β : Type} (x : Except Fault α) (y : Except Fault β) : Prop :=
  ∀ f, x = .error f ↔ y = .error f

namespace FailAlike

variable {α β γ δ : Type}

@[simp]
theorem ok (a : α) (b : β) : FailAlike (.ok a) (.ok b) :=
  fun _ => ⟨nofun, nofun⟩

@[simp]
theorem pure (a : α) (b : β) : FailAlike (Pure.pure a) (Pure.pure b) :=
  ok a b

@[simp]
theorem error (f : Fault) : FailAlike (.error f : Except Fault α) (.error f : Except Fault β) :=
  fun g => ⟨fun h => by cases h; rfl, fun h => by cases h; rfl⟩

@[simp]
theorem throw (f : Fault) :
    FailAlike (MonadExcept.throw f : Except Fault α) (MonadExcept.throw f : Except Fault β) :=
  error f

/-- Steps that fail alike, with continuations that fail alike on what the steps give. -/
theorem bind {x : Except Fault α} {y : Except Fault β} {f : α → Except Fault γ}
    {g : β → Except Fault δ} (hxy : FailAlike x y)
    (hfg : ∀ a b, x = .ok a → y = .ok b → FailAlike (f a) (g b)) :
    FailAlike (x >>= f) (y >>= g) := by
  cases x with
  | error e =>
    rw [(hxy e).1 rfl]
    exact error e
  | ok a =>
    cases y with
    | error e => cases (hxy e).2 rfl
    | ok b => exact hfg a b rfl rfl

/-- A step that both take. -/
theorem bind_same {x : Except Fault α} {f : α → Except Fault γ} {g : α → Except Fault δ}
    (hfg : ∀ a, x = .ok a → FailAlike (f a) (g a)) : FailAlike (x >>= f) (x >>= g) := by
  cases x with
  | error e => exact error e
  | ok a => exact hfg a rfl

theorem map {x : Except Fault α} {y : Except Fault β} (h : FailAlike x y) (f : α → γ)
    (g : β → δ) : FailAlike (f <$> x) (g <$> y) :=
  h.bind fun a b _ _ => ok (f a) (g b)

end FailAlike

/-- Functions that have a formula over as many arguments as they take. -/
def Functions.HaveFormulas (fs : Functions) : Prop :=
  ∀ e ∈ fs, ∀ args, e.2.takes args.length = true → ∃ f, e.2.formula args = .ok f

namespace Functions

theorem HaveFormulas.register {fs : Functions} (h : fs.HaveFormulas) {f : ScalarFunction}
    (hf : ∀ args, f.takes args.length = true → ∃ g, f.formula args = .ok g) (name : String) :
    (fs.register name f).HaveFormulas := by
  intro e he
  rcases Registry.mem_insert he with rfl | he
  · exact hf
  · exact h e he

/-- What a call refers to has a formula over its arguments. -/
theorem HaveFormulas.of_resolve {fs : Functions} (h : fs.HaveFormulas) {name : String} {count : Nat}
    {f : ScalarFunction} (hf : fs.resolve name count = .ok f) {args : List Formula}
    (hargs : args.length = count) : ∃ g, f.formula args = .ok g := by
  have takes : f.takes args.length = true := by rw [hargs]; exact takes_of_resolve hf
  unfold resolve at hf
  split at hf
  · cases hf
  · next g hg =>
    split at hf
    · cases hf
      exact h _ (Registry.mem_of_get? hg) args takes
    · cases hf

theorem exists_formula_choice {args : List Formula}
    (h : ScalarFunction.choice.takes args.length = true) :
    ∃ f, ScalarFunction.choice.formula args = .ok f := by
  obtain ⟨hleast, hmost⟩ := Bool.and_eq_true_iff.1 h
  have three : args.length = 3 :=
    Nat.le_antisymm (of_decide_eq_true hmost) (of_decide_eq_true hleast)
  obtain ⟨condition, yes, no, rfl⟩ := List.length_eq_three.1 three
  exact ⟨_, rfl⟩

/-- The built-in functions have formulas. -/
theorem haveFormulas_builtin : builtin.HaveFormulas := by
  have empty : HaveFormulas [] := by
    intro e he
    cases he
  have coalesce (least : Nat) (most : Option Nat) (args : List Formula) :
      ∃ f, (ScalarFunction.coalesce least most).formula args = .ok f := ⟨_, rfl⟩
  exact ((empty.register (fun _ => exists_formula_choice) "IF").register
    (fun args _ => coalesce 1 none args) "COALESCE").register
    (fun args _ => coalesce 2 (some 2) args) "IFNULL"

end Functions

section

variable {columns : List String} {functions : Functions} {scope : Scope}

theorem Bound.length_ofExprs {inAggregate : Bool} {es : List Expr} {xs : List Bound}
    (h : Bound.ofExprs columns functions scope inAggregate es = .ok xs) :
    xs.length = es.length := by
  induction es generalizing xs with
  | nil =>
    cases h
    rfl
  | cons e es ih =>
    obtain ⟨x, -, h⟩ := bind_eq_ok.1 h
    obtain ⟨ys, hys, h⟩ := bind_eq_ok.1 h
    cases h
    exact congrArg (· + 1) (ih hys)

theorem Formula.length_ofExprs {inAggregate : Bool} {es : List Expr} {fs : List Formula}
    (h : Formula.ofExprs columns functions scope inAggregate es = .ok fs) :
    fs.length = es.length := by
  induction es generalizing fs with
  | nil =>
    cases h
    rfl
  | cons e es ih =>
    obtain ⟨f, -, h⟩ := bind_eq_ok.1 h
    obtain ⟨gs, hgs, h⟩ := bind_eq_ok.1 h
    cases h
    exact congrArg (· + 1) (ih hgs)

mutual

/-- Binding and lowering fail alike where every function has a formula over what it takes. -/
theorem failAlike_ofExpr (h : functions.HaveFormulas) (inAggregate : Bool) (e : Expr) :
    FailAlike (Bound.ofExpr columns functions scope inAggregate e)
      (Formula.ofExpr columns functions scope inAggregate e) := by
  cases e with
  | literal x => exact .ok _ _
  | column name => exact .bind_same fun c _ => .pure _ _
  | countStar => exact .bind_same fun _ _ => .pure _ _
  | call name args =>
    unfold Bound.ofExpr Formula.ofExpr
    cases Aggregate.ofName? name with
    | some a =>
      refine .bind_same fun _ _ => ?_
      dsimp only
      split
      · exact .throw _
      · next hone =>
        refine .bind (failAlike_ofExprs h true args) fun xs fs hxs hfs => ?_
        have hone : args.length = 1 := not_not.1 hone
        obtain ⟨x, rfl⟩ := List.length_eq_one_iff.1 ((Bound.length_ofExprs hxs).trans hone)
        obtain ⟨f, rfl⟩ := List.length_eq_one_iff.1 ((Formula.length_ofExprs hfs).trans hone)
        exact .pure _ _
    | none =>
      refine .bind_same fun f hf => .bind (failAlike_ofExprs h inAggregate args) ?_
      intro xs fs _ hfs
      obtain ⟨g, hg⟩ := h.of_resolve hf (Formula.length_ofExprs hfs)
      rw [hg]
      exact .ok _ _
  | neg e | not e | isNull e negated => exact (failAlike_ofExpr h inAggregate e).map _ _
  | binary op l r =>
    exact (failAlike_ofExpr h inAggregate l).bind fun _ _ _ _ =>
      (failAlike_ofExpr h inAggregate r).map _ _
  | inList e items negated =>
    exact (failAlike_ofExpr h inAggregate e).bind fun _ _ _ _ =>
      (failAlike_ofExprs h inAggregate items).map _ _

theorem failAlike_ofExprs (h : functions.HaveFormulas) (inAggregate : Bool) (es : List Expr) :
    FailAlike (Bound.ofExprs columns functions scope inAggregate es)
      (Formula.ofExprs columns functions scope inAggregate es) := by
  cases es with
  | nil => exact .ok _ _
  | cons e es =>
    exact (failAlike_ofExpr h inAggregate e).bind fun _ _ _ _ =>
      (failAlike_ofExprs h inAggregate es).map _ _

end

end

/-- Over the built-in functions, an expression cannot be bound to the columns of a table exactly if
it cannot be lowered to a formula over them, and then for the same reason. -/
theorem bind_eq_error_iff_lower (e : Expr) (columns : List String) (scope : Scope) (f : Fault) :
    Bound.bind e columns .builtin scope = .error f ↔
      Formula.lower e columns .builtin scope = .error f :=
  failAlike_ofExpr Functions.haveFormulas_builtin false e f

/-- Of two unknown columns both report the left one. -/
example : Bound.bind (.binary .add (.column "y") (.column "z")) ["x"] .builtin .row =
      .error (.noColumn "y" ["x"]) ∧
    Formula.lower (.binary .add (.column "y") (.column "z")) ["x"] .builtin .row =
      .error (.noColumn "y" ["x"]) :=
  ⟨rfl, rfl⟩

end TableQuery
