import TableQuery.Proofs.Placewise

/-!
# Where expressions have single values

Expressions with aggregates are told from those without by the names of the functions that they
call, and binding goes by the same names: only an expression without aggregates has a meaning row by
row, and then it has the same meaning for groups. A row has a single value in every column, and an
aggregate makes a single value of many. So an expression has one value for every row, and one for
every group if it reads columns inside aggregates only.
-/

namespace TableQuery

/-! ## Aggregates by name -/

/-- The names of the aggregates, in capitals. -/
def Aggregate.names : List String :=
  ["SUM", "AVG", "MEAN", "MIN", "MAX", "COUNT", "FIRST", "LAST"]

/-- A function name denotes an aggregate exactly if it is one of their names, in any case of
letters. -/
theorem Aggregate.isSome_ofName? (name : String) :
    (ofName? name).isSome = names.contains (Text.upper name) := by
  unfold ofName?
  split <;> simp_all [names]

namespace Bound

section

variable {columns : List String} {functions : Functions}

mutual

/-- Only an expression without aggregates can be bound where it has a value per row. -/
theorem containsAggregate_of_row {inAggregate : Bool} {e : Expr} {x : Bound}
    (h : ofExpr columns functions .row inAggregate e = .ok x) : e.containsAggregate = false := by
  cases e with
  | literal v | column name => rfl
  | countStar => cases h
  | call name args =>
    cases ha : Aggregate.ofName? name with
    | some a =>
      simp only [ofExpr, ha] at h
      cases h
    | none =>
      simp only [ofExpr, ha] at h
      obtain ⟨f, -, h⟩ := bind_eq_ok.1 h
      obtain ⟨ys, hys, -⟩ := bind_eq_ok.1 h
      exact Bool.or_eq_false_iff.2 ⟨by rw [ha]; rfl, anyAggregate_of_row hys⟩
  | neg e | not e | isNull e negated =>
    obtain ⟨y, hy, -⟩ := bind_eq_ok.1 h
    change e.containsAggregate = false
    exact containsAggregate_of_row hy
  | binary op l r =>
    obtain ⟨y, hy, h⟩ := bind_eq_ok.1 h
    obtain ⟨z, hz, -⟩ := bind_eq_ok.1 h
    exact Bool.or_eq_false_iff.2 ⟨containsAggregate_of_row hy, containsAggregate_of_row hz⟩
  | inList e items negated =>
    obtain ⟨y, hy, h⟩ := bind_eq_ok.1 h
    obtain ⟨ys, hys, -⟩ := bind_eq_ok.1 h
    exact Bool.or_eq_false_iff.2 ⟨containsAggregate_of_row hy, anyAggregate_of_row hys⟩

theorem anyAggregate_of_row {inAggregate : Bool} {es : List Expr} {xs : List Bound}
    (h : ofExprs columns functions .row inAggregate es = .ok xs) : Expr.anyAggregate es = false := by
  cases es with
  | nil => rfl
  | cons e es =>
    obtain ⟨y, hy, h⟩ := bind_eq_ok.1 h
    obtain ⟨ys, hys, -⟩ := bind_eq_ok.1 h
    exact Bool.or_eq_false_iff.2 ⟨containsAggregate_of_row hy, anyAggregate_of_row hys⟩

end

/-- Where a value per row is asked for, aggregates are refused. -/
theorem exists_error_of_containsAggregate {e : Expr} (he : e.containsAggregate = true) :
    ∃ f, bind e columns functions .row = .error f := by
  cases h : bind e columns functions .row with
  | error f => exact ⟨f, rfl⟩
  | ok x => cases he.symm.trans (containsAggregate_of_row h)

end

end Bound

/-! ## Single values -/

namespace Datum

variable {α β γ : Type}

/-- Whether data are a single value. -/
def IsSingle : Datum α → Prop
  | .one _ => True
  | .many _ => False

theorem IsSingle.map {a : Datum α} (ha : a.IsSingle) (f : α → β) : (a.map f).IsSingle := by
  cases a with
  | one x => trivial
  | many xs => cases ha

theorem IsSingle.of_mapM {a : Datum α} (ha : a.IsSingle) {f : α → Except Fault β} {b : Datum β}
    (h : a.mapM f = .ok b) : b.IsSingle := by
  cases a with
  | one x =>
    obtain ⟨y, -, h⟩ := bind_eq_ok.1 h
    cases h
    trivial
  | many xs => cases ha

theorem IsSingle.of_zipM {a : Datum α} {b : Datum β} (ha : a.IsSingle) (hb : b.IsSingle)
    {f : α → β → Except Fault γ} {c : Datum γ} (h : zipM f a b = .ok c) : c.IsSingle := by
  cases a with
  | many xs => cases ha
  | one x =>
    cases b with
    | many ys => cases hb
    | one y =>
      obtain ⟨z, -, h⟩ := bind_eq_ok.1 h
      cases h
      trivial

/-- A single value is the only value. -/
theorem IsSingle.freeOf_single {a : Datum α} (ha : a.IsSingle) (bad : Fault → Bool) :
    FreeOf bad a.single := by
  cases a with
  | one x => exact .ok x
  | many xs => cases ha

/-- Single values have no length in common. -/
theorem commonLength_of_isSingle {as : List (Datum α)} (has : ∀ a ∈ as, a.IsSingle) :
    commonLength as = .ok none := by
  unfold commonLength
  induction as with
  | nil => rfl
  | cons a as ih =>
    rw [List.forall_mem_cons] at has
    cases a with
    | one x => exact ih has.2
    | many xs => cases has.1

end Datum

namespace ScalarFunction

/-- A function that makes a single value of single values. -/
def KeepsSingle (f : ScalarFunction) : Prop :=
  ∀ args v, (∀ a ∈ args, a.IsSingle) → f.apply args = .ok v → v.IsSingle

theorem keepsSingle_coalesce (least : Nat) (most : Option Nat) :
    (coalesce least most).KeepsSingle := by
  intro args v hargs h
  have hlength := Datum.commonLength_of_isSingle hargs
  change applyCoalesce args = .ok v at h
  rw [applyCoalesce, hlength, ok_bind] at h
  cases h
  trivial

theorem keepsSingle_choice : choice.KeepsSingle := by
  intro args v hargs h
  change applyIf args = .ok v at h
  unfold applyIf at h
  split at h
  · next condition yes no =>
    simp only [List.forall_mem_cons] at hargs
    obtain ⟨hcondition, hyes, hno, -⟩ := hargs
    cases condition with
    | one c =>
      cases h
      split
      · exact hyes
      · exact hno
    | many cs => cases hcondition
  · cases h
    trivial

/-- The built-in functions make single values of single values. -/
theorem keepsSingle_of_builtin {e : String × ScalarFunction} (h : e ∈ Functions.builtin) :
    e.2.KeepsSingle :=
  Functions.of_mem_builtin keepsSingle_coalesce keepsSingle_choice h

end ScalarFunction

/-- Whether a fault says that an expression has many values. -/
@[simp]
def Fault.isManyValues : Fault → Bool
  | .expression .manyValues => true
  | _ => false

theorem sparesValues_isManyValues : SparesValues Fault.isManyValues := by
  intro f hf
  unfold Fault.isOfValues at hf
  split at hf <;> simp_all

/-- Whether a column has a single value for the given rows, as far as it has any. -/
def Rows.IsSingleIn (d : Loaded) (r : Rows) (name : String) : Prop :=
  ∀ v, r.column d name = .ok v → v.IsSingle

/-- A row has a single value in every column. -/
theorem Rows.isSingleIn_single (d : Loaded) (row : Nat) (name : String) :
    (Rows.single row).IsSingleIn d name := by
  intro v hv
  obtain ⟨xs, -, hv⟩ := bind_eq_ok.1 hv
  cases hv
  trivial

namespace Bound

mutual

/-- The columns that a bound expression reads outside aggregates. -/
def outside : Bound → List String
  | .const _ => []
  | .column name => [name]
  | .call _ _ args => outsideOfAll args
  | .aggregate _ _ => []
  | .rowCount => []
  | .neg x => outside x
  | .not x => outside x
  | .binary _ l r => outside l ++ outside r
  | .isNull x _ => outside x
  | .inList x items _ => outside x ++ outsideOfAll items

def outsideOfAll : List Bound → List String
  | [] => []
  | x :: xs => outside x ++ outsideOfAll xs

end

section

variable {d : Loaded} {r : Rows}

mutual

/-- An expression has a single value if the columns that it reads outside aggregates have. -/
theorem isSingle_of_eval {x : Bound} (hcolumns : ∀ name ∈ x.outside, r.IsSingleIn d name)
    (hcalls : ∀ f ∈ x.calls, f.KeepsSingle) {v : Datum Scalar} (hv : x.eval d r = .ok v) :
    v.IsSingle := by
  cases x with
  | const c =>
    cases hv
    trivial
  | rowCount =>
    cases hv
    trivial
  | column name => exact hcolumns name List.mem_cons_self v hv
  | call name f args =>
    obtain ⟨vs, hvs, hv⟩ := bind_eq_ok.1 hv
    have hargs := isSingle_of_evalAll hcolumns
      (fun g hg => hcalls g (List.mem_cons_of_mem f hg)) hvs
    exact hcalls f List.mem_cons_self vs v hargs hv
  | aggregate a x =>
    obtain ⟨w, -, hv⟩ := bind_eq_ok.1 hv
    obtain ⟨y, -, hv⟩ := bind_eq_ok.1 hv
    cases hv
    trivial
  | neg x =>
    obtain ⟨w, hw, hv⟩ := bind_eq_ok.1 hv
    exact (isSingle_of_eval (x := x) hcolumns hcalls hw).of_mapM hv
  | not x | isNull x negated =>
    obtain ⟨w, hw, hv⟩ := bind_eq_ok.1 hv
    cases hv
    exact (isSingle_of_eval (x := x) hcolumns hcalls hw).map _
  | binary op x y =>
    obtain ⟨a, ha, hv⟩ := bind_eq_ok.1 hv
    obtain ⟨b, hb, hv⟩ := bind_eq_ok.1 hv
    have hx := isSingle_of_eval (fun name h => hcolumns name (List.mem_append_left _ h))
      (fun f hf => hcalls f (List.mem_append_left _ hf)) ha
    have hy := isSingle_of_eval (fun name h => hcolumns name (List.mem_append_right _ h))
      (fun f hf => hcalls f (List.mem_append_right _ hf)) hb
    exact hx.of_zipM hy hv
  | inList x items negated =>
    obtain ⟨target, htarget, hv⟩ := bind_eq_ok.1 hv
    obtain ⟨hits, hhits, hv⟩ := bind_eq_ok.1 hv
    have hx := isSingle_of_eval (fun name h => hcolumns name (List.mem_append_left _ h))
      (fun f hf => hcalls f (List.mem_append_left _ hf)) htarget
    have hall := isSingle_of_evalItems (fun name h => hcolumns name (List.mem_append_right _ h))
      (fun f hf => hcalls f (List.mem_append_right _ hf)) hx (hx.map _) hhits
    cases hv
    split
    · exact hall.map _
    · exact hall

theorem isSingle_of_evalAll {xs : List Bound}
    (hcolumns : ∀ name ∈ outsideOfAll xs, r.IsSingleIn d name)
    (hcalls : ∀ f ∈ callsOfAll xs, f.KeepsSingle) {vs : List (Datum Scalar)}
    (hvs : evalAll d r xs = .ok vs) : ∀ v ∈ vs, v.IsSingle := by
  cases xs with
  | nil =>
    cases hvs
    exact List.forall_mem_nil _
  | cons x xs =>
    obtain ⟨w, hw, hvs⟩ := bind_eq_ok.1 hvs
    obtain ⟨ws, hws, hvs⟩ := bind_eq_ok.1 hvs
    cases hvs
    have hx := isSingle_of_eval (fun name h => hcolumns name (List.mem_append_left _ h))
      (fun f hf => hcalls f (List.mem_append_left _ hf)) hw
    have hxs := isSingle_of_evalAll (fun name h => hcolumns name (List.mem_append_right _ h))
      (fun f hf => hcalls f (List.mem_append_right _ hf)) hws
    exact List.forall_mem_cons.2 ⟨hx, hxs⟩

theorem isSingle_of_evalItems {xs : List Bound}
    (hcolumns : ∀ name ∈ outsideOfAll xs, r.IsSingleIn d name)
    (hcalls : ∀ f ∈ callsOfAll xs, f.KeepsSingle) {target before v : Datum Scalar}
    (htarget : target.IsSingle) (hbefore : before.IsSingle)
    (hv : evalItems d r target before xs = .ok v) : v.IsSingle := by
  cases xs with
  | nil =>
    cases hv
    exact hbefore
  | cons x xs =>
    obtain ⟨item, hitem, hv⟩ := bind_eq_ok.1 hv
    obtain ⟨hit, hhit, hv⟩ := bind_eq_ok.1 hv
    obtain ⟨now, hnow, hv⟩ := bind_eq_ok.1 hv
    have hx := isSingle_of_eval (fun name h => hcolumns name (List.mem_append_left _ h))
      (fun f hf => hcalls f (List.mem_append_left _ hf)) hitem
    exact isSingle_of_evalItems (fun name h => hcolumns name (List.mem_append_right _ h))
      (fun f hf => hcalls f (List.mem_append_right _ hf)) htarget
      (hbefore.of_zipM (htarget.of_zipM hx hhit) hnow) hv

end

end

section

variable {columns : List String} {scope : Scope} {e : Expr} {x : Bound}

/-- With the built-in functions, an expression does not have many values where the columns that it
reads outside aggregates do not. -/
theorem freeOf_manyValues (hx : bind e columns .builtin scope = .ok x) (d : Loaded) (r : Rows)
    (hcolumns : ∀ name ∈ x.outside, r.IsSingleIn d name) :
    FreeOf Fault.isManyValues (do (← x.eval d r).single) := by
  have hfree := of_mem_calls_of_builtin
    (fun _ => ScalarFunction.isFreeOf_of_builtin sparesValues_isManyValues) hx
  have hkeep := of_mem_calls_of_builtin (fun _ => ScalarFunction.keepsSingle_of_builtin) hx
  have heval := freeOf_eval d r sparesValues_isManyValues x
    (fun name _ => d.freeOf_values (fun _ => rfl) name) hfree
  exact heval.bind_of_ok fun v hv => (isSingle_of_eval hcolumns hkeep hv).freeOf_single _

/-- Aggregates are told by their names where expressions are read and where they are bound: with one
in it, an expression has no meaning row by row, and without it the same meaning as for groups. What
has a meaning row by row never has many values for a row, and what reads columns inside aggregates
only never has many for a group. -/
theorem has_single_values (e : Expr) (columns : List String) :
    (∀ name, (Aggregate.ofName? name).isSome = Aggregate.names.contains (Text.upper name)) ∧
    (e.containsAggregate = true → ∃ f, bind e columns .builtin .row = .error f) ∧
    (e.containsAggregate = false →
      bind e columns .builtin .row = bind e columns .builtin .group) ∧
    (∀ x, bind e columns .builtin .row = .ok x →
      ∀ d, x.evalRows d ≠ .error (.expression .manyValues)) ∧
    ∀ x, bind e columns .builtin .group = .ok x → x.outside = [] →
      ∀ d groups, x.evalGroups d groups ≠ .error (.expression .manyValues) := by
  refine ⟨Aggregate.isSome_ofName?, exists_error_of_containsAggregate,
    fun he => ofExpr_scope_irrelevant he .row .group false false, fun x hx d hmany => ?_,
    fun x hx houtside d groups hmany => ?_⟩
  · have hrow (row : Nat) := freeOf_manyValues hx d (.single row)
      fun name _ => Rows.isSingleIn_single d row name
    have := FreeOf.mapM hrow _ _ hmany
    cases this
  · have hgroup (rows : List Nat) := freeOf_manyValues hx d (.group rows)
      fun name hname => by rw [houtside] at hname; cases hname
    have := FreeOf.mapM hgroup _ _ hmany
    cases this

/-- `IF(COUNT(*) > 1, mean(price), COALESCE(MAX(price) - 1, 0)) IN (5, SUM(weight))`. -/
def isMean : Expr :=
  .inList (.call "IF" [.binary .gt .countStar (.literal (.int 1)), .call "mean" [.column "price"],
      .call "COALESCE" [.binary .sub (.call "MAX" [.column "price"]) (.literal (.int 1)),
        .literal (.int 0)]])
    [.literal (.int 5), .call "SUM" [.column "weight"]] false

theorem has_single_values_parcels :
    (∃ f, bind isMean ["weight", "price"] .builtin .row = .error f) ∧
    (∃ x, bind isMean ["weight", "price"] .builtin .group = .ok x ∧ x.outside = [] ∧
      (∃ values, x.evalGroups parcels [[1, 0, 1], []] = .ok values) ∧
      x.evalGroups parcels [[1, 0, 1], []] ≠ .error (.expression .manyValues)) ∧
    bind isCheap ["weight", "price"] .builtin .row =
      bind isCheap ["weight", "price"] .builtin .group ∧
    ∃ x, bind isCheap ["weight", "price"] .builtin .row = .ok x ∧
      x.evalRows parcels ≠ .error (.expression .manyValues) := by
  obtain ⟨-, hrow, -, -, hgroups⟩ := has_single_values isMean ["weight", "price"]
  obtain ⟨-, -, hsame, hrows, -⟩ := has_single_values isCheap ["weight", "price"]
  obtain ⟨x, hx⟩ := exists_eq_ok (x := bind isMean ["weight", "price"] .builtin .group)
    (by decide +kernel)
  obtain ⟨y, hy⟩ := exists_eq_ok (x := bind isCheap ["weight", "price"] .builtin .row)
    (by decide +kernel)
  have houtside : x.outside = [] := by
    cases hx
    rfl
  refine ⟨hrow (by decide +kernel), ⟨x, hx, houtside, exists_eq_ok ?_, hgroups x hx houtside _ _⟩,
    hsame (by decide +kernel), y, hy, hrows y hy _⟩
  cases hx
  decide +kernel

end

end Bound

end TableQuery
