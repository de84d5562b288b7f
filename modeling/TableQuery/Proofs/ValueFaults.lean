import TableQuery.Bound.Eval
import TableQuery.Function.Builtin
import TableQuery.Proofs.Success

/-!
# Faults of values

Operators, aggregates and the built-in functions fail for one reason only: values do not go
together, with an operator or with one another. The evaluation of an expression fails for this
reason too, or because a column that it reads is not at hand. So it is free of every kind of fault
that is neither.
-/

namespace TableQuery

/-- A computation without faults of a certain kind. -/
def FreeOf {α : Type} (bad : Fault → Bool) (x : Except Fault α) : Prop :=
  ∀ f, x = .error f → bad f = false

namespace FreeOf

variable {α β γ : Type} {bad : Fault → Bool}

@[simp]
theorem ok (a : α) : FreeOf bad (.ok a) := by
  intro f h
  cases h

@[simp]
theorem pure (a : α) : FreeOf bad (Pure.pure a) :=
  ok a

@[simp]
theorem error_iff (f : Fault) : FreeOf bad (.error f : Except Fault α) ↔ bad f = false := by
  constructor
  · intro h
    exact h f rfl
  · rintro h _ ⟨⟩
    exact h

@[simp]
theorem throw_iff (f : Fault) : FreeOf bad (throw f : Except Fault α) ↔ bad f = false :=
  error_iff f

/-- Only what the first computation gives matters to the second. -/
theorem bind_of_ok {x : Except Fault α} {f : α → Except Fault β} (hx : FreeOf bad x)
    (hf : ∀ a, x = .ok a → FreeOf bad (f a)) : FreeOf bad (x >>= f) := by
  cases x with
  | error e => exact (error_iff e).2 (hx e rfl)
  | ok a => exact hf a rfl

@[simp]
theorem bind {x : Except Fault α} {f : α → Except Fault β} (hx : FreeOf bad x)
    (hf : ∀ a, FreeOf bad (f a)) : FreeOf bad (x >>= f) :=
  hx.bind_of_ok fun a _ => hf a

@[simp]
theorem map {x : Except Fault α} {f : α → β} (hx : FreeOf bad x) : FreeOf bad (f <$> x) := by
  cases x with
  | error e => exact (error_iff e).2 (hx e rfl)
  | ok a => exact ok (f a)

@[simp]
theorem mapM {f : α → Except Fault β} (hf : ∀ a, FreeOf bad (f a)) (xs : List α) :
    FreeOf bad (xs.mapM f) := by
  induction xs with
  | nil => simp
  | cons x xs ih =>
    rw [List.mapM_cons]
    exact bind (hf x) fun _ => bind ih fun _ => pure _

@[simp]
theorem foldlM {f : β → α → Except Fault β} (hf : ∀ b a, FreeOf bad (f b a)) (b : β)
    (xs : List α) : FreeOf bad (xs.foldlM f b) := by
  induction xs generalizing b with
  | nil => simp
  | cons x xs ih =>
    rw [List.foldlM_cons]
    exact bind (hf b x) ih

@[simp]
theorem ite {p : Prop} [Decidable p] {x y : Except Fault α} (hx : FreeOf bad x)
    (hy : FreeOf bad y) : FreeOf bad (if p then x else y) := by
  split
  · exact hx
  · exact hy

@[simp]
theorem mapError {ε : Type} {x : Except ε α} {g : ε → Fault} (hg : ∀ e, bad (g e) = false) :
    FreeOf bad (x.mapError g) := by
  cases x with
  | error e => exact (error_iff (g e)).2 (hg e)
  | ok a => exact ok a

end FreeOf

/-! ## Values that do not go together -/

/-- Whether a fault says that values do not go together. -/
@[simp]
def Fault.isOfValues : Fault → Bool
  | .expression (.operands ..) => true
  | .expression (.incomparable ..) => true
  | .expression (.negated _) => true
  | .execution (.lengths ..) => true
  | .execution (.sumOf _) => true
  | .execution (.meanOf _) => true
  | .execution (.unordered ..) => true
  | _ => false

/-- No fault of a certain kind says that values do not go together. -/
def SparesValues (bad : Fault → Bool) : Prop :=
  ∀ f : Fault, f.isOfValues = true → bad f = false

theorem SparesValues.error {α : Type} {bad : Fault → Bool} (h : SparesValues bad) {f : Fault}
    (hf : f.isOfValues = true) : FreeOf bad (.error f : Except Fault α) :=
  (FreeOf.error_iff f).2 (h f hf)

section

variable {bad : Fault → Bool} (hbad : SparesValues bad)

include hbad

theorem Scalar.freeOf_binary (op : BinaryOp) (a b : Scalar) : FreeOf bad (binary op a b) := by
  unfold binary comparison arithmetic
  repeat' split
  all_goals simp
  all_goals exact hbad _ rfl

theorem Scalar.freeOf_negate (x : Scalar) : FreeOf bad (negate x) := by
  unfold negate
  split <;> simp
  exact hbad _ rfl

namespace Aggregate

theorem freeOf_add (s : RunningSum) (x : Scalar) : FreeOf bad (s.add x) := by
  unfold RunningSum.add
  split <;> simp
  exact hbad _ rfl

theorem freeOf_reduce (a : Aggregate) (xs : List Scalar) : FreeOf bad (a.reduce xs) := by
  cases a with
  | sum => exact .map (.foldlM (fun s x => freeOf_add hbad s x) _ _)
  | avg =>
    refine .bind (.mapM (fun x => ?_) _) fun numbers => ?_
    · split
      · exact .ok _
      · exact hbad.error rfl
    · split <;> simp
  | min | max =>
    refine .foldlM (fun best x => ?_) _ _
    repeat' split
    all_goals simp
    exact hbad _ rfl
  | count | first | last => simp [reduce]

end Aggregate

namespace Datum

variable {α β γ : Type}

omit hbad in
theorem freeOf_mapM {f : α → Except Fault β} (hf : ∀ x, FreeOf bad (f x)) (d : Datum α) :
    FreeOf bad (d.mapM f) := by
  cases d <;> simp [mapM, hf]

theorem freeOf_zipM {f : α → β → Except Fault γ} (hf : ∀ x y, FreeOf bad (f x y)) (a : Datum α)
    (b : Datum β) : FreeOf bad (zipM f a b) := by
  unfold zipM
  split
  · simp [hf]
  · simp [hf]
  · simp [hf]
  · exact .ite (by simp [hf]) (hbad.error rfl)

theorem freeOf_commonLength (ds : List (Datum α)) : FreeOf bad (commonLength ds) := by
  suffices h : ∀ known, FreeOf bad (commonLengthFrom known ds) from h none
  induction ds with
  | nil => simp [commonLengthFrom]
  | cons d ds ih =>
    intro known
    unfold commonLengthFrom
    split
    · exact ih _
    · exact ih _
    · exact .ite (ih _) (hbad.error rfl)

end Datum

end

/-! ## Columns at hand -/

section

variable {bad : Fault → Bool}

/-- The only fault of a column that is looked up is that there is none of its name. -/
theorem Table.freeOf_column (hbad : ∀ name, bad (.columns (.missing name)) = false) (t : Table)
    (name : String) : FreeOf bad (t.column name) := by
  unfold column
  split <;> simp [hbad]

namespace Loaded

theorem freeOf_ofTable (hbad : ∀ name, bad (.columns (.missing name)) = false) (t : Table)
    (names : List String) : FreeOf bad (ofTable t names) :=
  .map (.mapM (fun name => .map (t.freeOf_column hbad name)) names)

theorem freeOf_values (hbad : ∀ name, bad (.execution (.notLoaded name)) = false) (d : Loaded)
    (name : String) : FreeOf bad (d.values name) := by
  unfold values
  split <;> simp [hbad]

end Loaded

theorem Datum.freeOf_single {α : Type} (hbad : bad (.expression .manyValues) = false)
    (d : Datum α) : FreeOf bad d.single := by
  cases d <;> simp [single, hbad]

end

/-! ## Functions -/

/-- What holds of the two kinds of built-in functions holds of all of them. -/
theorem Functions.of_mem_builtin {p : ScalarFunction → Prop}
    (hcoalesce : ∀ least most, p (.coalesce least most)) (hchoice : p .choice)
    {e : String × ScalarFunction} (h : e ∈ Functions.builtin) : p e.2 := by
  rcases Registry.mem_insert h with rfl | h
  · exact hcoalesce 2 (some 2)
  · rcases Registry.mem_insert h with rfl | h
    · exact hcoalesce 1 none
    · rcases Registry.mem_insert h with rfl | h
      · exact hchoice
      · cases h

namespace ScalarFunction

variable {bad : Fault → Bool}

/-- A function whose application has no fault of a certain kind. -/
def IsFreeOf (bad : Fault → Bool) (f : ScalarFunction) : Prop :=
  ∀ args, FreeOf bad (f.apply args)

theorem isFreeOf_coalesce (hbad : SparesValues bad) (least : Nat) (most : Option Nat) :
    (coalesce least most).IsFreeOf bad := by
  intro args
  refine .bind (Datum.freeOf_commonLength hbad args) fun n => ?_
  split <;> simp

theorem isFreeOf_choice (hbad : SparesValues bad) : choice.IsFreeOf bad := by
  intro args
  change FreeOf bad (applyIf args)
  unfold applyIf
  split
  · split
    · simp
    · exact .bind (Datum.freeOf_commonLength hbad _) fun _ => by simp
  · simp

/-- The built-in functions fail only because values do not go together. -/
theorem isFreeOf_of_builtin (hbad : SparesValues bad) {e : String × ScalarFunction}
    (h : e ∈ Functions.builtin) : e.2.IsFreeOf bad :=
  Functions.of_mem_builtin (isFreeOf_coalesce hbad) (isFreeOf_choice hbad) h

end ScalarFunction

/-- What a call refers to is in the registry. -/
theorem Functions.mem_of_resolve {fs : Functions} {name : String} {count : Nat} {f : ScalarFunction}
    (h : fs.resolve name count = .ok f) : (Text.upper name, f) ∈ fs := by
  unfold Functions.resolve at h
  split at h
  · cases h
  · next g hg =>
    split at h
    · cases h
      exact Registry.mem_of_get? hg
    · cases h

/-! ## Expressions -/

namespace Bound

mutual

/-- The functions that a bound expression calls. -/
def calls : Bound → List ScalarFunction
  | .const _ => []
  | .column _ => []
  | .call _ f args => f :: callsOfAll args
  | .aggregate _ x => calls x
  | .rowCount => []
  | .neg x => calls x
  | .not x => calls x
  | .binary _ l r => calls l ++ calls r
  | .isNull x _ => calls x
  | .inList x items _ => calls x ++ callsOfAll items

def callsOfAll : List Bound → List ScalarFunction
  | [] => []
  | x :: xs => calls x ++ callsOfAll xs

end

section

variable {columns : List String} {functions : Functions} {scope : Scope}

/-- An aggregate is bound with one operand, bound inside it. -/
theorem ofExpr_aggregate {inAggregate : Bool} {name : String} {args : List Expr} {a : Aggregate}
    {x : Bound} (ha : Aggregate.ofName? name = some a)
    (h : ofExpr columns functions scope inAggregate (.call name args) = .ok x) :
    ∃ y, ofExprs columns functions scope true args = .ok [y] ∧ x = .aggregate a y := by
  simp only [ofExpr, ha] at h
  obtain ⟨-, -, h⟩ := bind_eq_ok.1 h
  split at h
  · cases h
  · obtain ⟨ys, hys, h⟩ := bind_eq_ok.1 h
    split at h
    · next y =>
      cases h
      exact ⟨y, hys, rfl⟩
    · cases h

mutual

/-- A bound expression calls functions that are known. -/
theorem known_of_mem_calls {inAggregate : Bool} {e : Expr} {x : Bound}
    (h : ofExpr columns functions scope inAggregate e = .ok x) {f : ScalarFunction}
    (hf : f ∈ x.calls) : ∃ name count, functions.resolve name count = .ok f := by
  cases e with
  | literal v =>
    cases h
    cases hf
  | column name =>
    obtain ⟨c, -, h⟩ := bind_eq_ok.1 h
    cases h
    cases hf
  | countStar =>
    obtain ⟨-, -, h⟩ := bind_eq_ok.1 h
    cases h
    cases hf
  | call name args =>
    cases ha : Aggregate.ofName? name with
    | some a =>
      obtain ⟨y, hy, rfl⟩ := ofExpr_aggregate ha h
      exact known_of_mem_callsOfAll hy (List.mem_append_left _ hf)
    | none =>
      simp only [ofExpr, ha] at h
      obtain ⟨g, hg, h⟩ := bind_eq_ok.1 h
      obtain ⟨ys, hys, h⟩ := bind_eq_ok.1 h
      cases h
      rcases List.mem_cons.1 hf with rfl | hf
      · exact ⟨name, args.length, hg⟩
      · exact known_of_mem_callsOfAll hys hf
  | neg e | not e =>
    obtain ⟨y, hy, h⟩ := bind_eq_ok.1 h
    cases h
    exact known_of_mem_calls hy hf
  | binary op l r =>
    obtain ⟨y, hy, h⟩ := bind_eq_ok.1 h
    obtain ⟨z, hz, h⟩ := bind_eq_ok.1 h
    cases h
    rcases List.mem_append.1 hf with hf | hf
    · exact known_of_mem_calls hy hf
    · exact known_of_mem_calls hz hf
  | isNull e negated =>
    obtain ⟨y, hy, h⟩ := bind_eq_ok.1 h
    cases h
    exact known_of_mem_calls hy hf
  | inList e items negated =>
    obtain ⟨y, hy, h⟩ := bind_eq_ok.1 h
    obtain ⟨ys, hys, h⟩ := bind_eq_ok.1 h
    cases h
    rcases List.mem_append.1 hf with hf | hf
    · exact known_of_mem_calls hy hf
    · exact known_of_mem_callsOfAll hys hf

theorem known_of_mem_callsOfAll {inAggregate : Bool} {es : List Expr} {xs : List Bound}
    (h : ofExprs columns functions scope inAggregate es = .ok xs) {f : ScalarFunction}
    (hf : f ∈ callsOfAll xs) : ∃ name count, functions.resolve name count = .ok f := by
  cases es with
  | nil =>
    cases h
    cases hf
  | cons e es =>
    obtain ⟨y, hy, h⟩ := bind_eq_ok.1 h
    obtain ⟨ys, hys, h⟩ := bind_eq_ok.1 h
    cases h
    rcases List.mem_append.1 hf with hf | hf
    · exact known_of_mem_calls hy hf
    · exact known_of_mem_callsOfAll hys hf

end

/-- What holds of the built-in functions holds of those that a bound expression calls. -/
theorem of_mem_calls_of_builtin {p : ScalarFunction → Prop} (hp : ∀ e ∈ Functions.builtin, p e.2)
    {e : Expr} {x : Bound} (hx : bind e columns .builtin scope = .ok x) :
    ∀ f ∈ x.calls, p f := by
  intro f hf
  obtain ⟨name, count, hf⟩ := known_of_mem_calls hx hf
  exact hp _ (Functions.mem_of_resolve hf)

end

section

variable {bad : Fault → Bool} (d : Loaded) (r : Rows)

mutual

/-- An evaluation is free of a kind of faults that spares values, if the columns that it reads are
and the functions that it calls. -/
theorem freeOf_eval (hbad : SparesValues bad) (x : Bound)
    (hreads : ∀ name ∈ x.reads, FreeOf bad (d.values name))
    (hcalls : ∀ f ∈ x.calls, f.IsFreeOf bad) : FreeOf bad (x.eval d r) := by
  cases x with
  | const v => simp [eval]
  | rowCount => simp [eval]
  | column name =>
    refine .bind (hreads name List.mem_cons_self) fun xs => ?_
    cases r <;> simp
  | call name f args =>
    have hargs := freeOf_evalAll hbad args hreads fun g hg => hcalls g (List.mem_cons_of_mem f hg)
    exact .bind hargs (hcalls f List.mem_cons_self)
  | aggregate a x =>
    exact .bind (freeOf_eval hbad x hreads hcalls) fun v => .map (Aggregate.freeOf_reduce hbad a _)
  | neg x =>
    exact .bind (freeOf_eval hbad x hreads hcalls) (Datum.freeOf_mapM (Scalar.freeOf_negate hbad))
  | not x | isNull x negated => exact .map (freeOf_eval hbad x hreads hcalls)
  | binary op x y =>
    have hx := freeOf_eval hbad x (fun name h => hreads name (List.mem_append_left _ h))
      fun f hf => hcalls f (List.mem_append_left _ hf)
    have hy := freeOf_eval hbad y (fun name h => hreads name (List.mem_append_right _ h))
      fun f hf => hcalls f (List.mem_append_right _ hf)
    exact .bind hx fun v => .bind hy fun w => v.freeOf_zipM hbad (Scalar.freeOf_binary hbad op) w
  | inList x items negated =>
    have hx := freeOf_eval hbad x (fun name h => hreads name (List.mem_append_left _ h))
      fun f hf => hcalls f (List.mem_append_left _ hf)
    have hitems := fun target before => freeOf_evalItems hbad target before items
      (fun name h => hreads name (List.mem_append_right _ h))
      fun f hf => hcalls f (List.mem_append_right _ hf)
    exact .bind hx fun v => .map (hitems v _)

theorem freeOf_evalAll (hbad : SparesValues bad) (xs : List Bound)
    (hreads : ∀ name ∈ readsOfAll xs, FreeOf bad (d.values name))
    (hcalls : ∀ f ∈ callsOfAll xs, f.IsFreeOf bad) : FreeOf bad (evalAll d r xs) := by
  cases xs with
  | nil => simp [evalAll]
  | cons x xs =>
    have hx := freeOf_eval hbad x (fun name h => hreads name (List.mem_append_left _ h))
      fun f hf => hcalls f (List.mem_append_left _ hf)
    have hxs := freeOf_evalAll hbad xs (fun name h => hreads name (List.mem_append_right _ h))
      fun f hf => hcalls f (List.mem_append_right _ hf)
    exact .bind hx fun _ => .map hxs

theorem freeOf_evalItems (hbad : SparesValues bad) (target before : Datum Scalar) (xs : List Bound)
    (hreads : ∀ name ∈ readsOfAll xs, FreeOf bad (d.values name))
    (hcalls : ∀ f ∈ callsOfAll xs, f.IsFreeOf bad) :
    FreeOf bad (evalItems d r target before xs) := by
  cases xs with
  | nil => simp [evalItems]
  | cons x xs =>
    have hx := freeOf_eval hbad x (fun name h => hreads name (List.mem_append_left _ h))
      fun f hf => hcalls f (List.mem_append_left _ hf)
    have hxs := fun now => freeOf_evalItems hbad target now xs
      (fun name h => hreads name (List.mem_append_right _ h))
      fun f hf => hcalls f (List.mem_append_right _ hf)
    refine .bind hx fun v => .bind ?_ fun hit => .bind ?_ hxs
    · exact target.freeOf_zipM hbad (Scalar.freeOf_binary hbad .eq) v
    · exact before.freeOf_zipM hbad (fun _ _ => .ok _) hit

end

end

end Bound

end TableQuery
