import TableQuery.Proofs.Orderly.Basic
import TableQuery.Session.Pipeline

/-!
# The engines are orderly

Neither engine fails with a fault of a sequence, nor does a plan when it is looked at or carried
out, nor a session when a table is loaded; but a join may not be able to tell columns apart. This is
shown operation by operation; plans go by induction.
-/

namespace TableQuery

/-! ## The eager engine -/

section

variable {fs : Functions}

theorem Bound.orderly_eval_of_bind (hfs : fs.AreOrderly) {e : Expr} {columns : List String}
    {scope : Scope} {x : Bound} (h : Bound.bind e columns fs scope = .ok x) (d : Loaded)
    (r : Rows) : Orderly (x.eval d r) := by
  refine orderly_eval d r x fun f hf args => ?_
  obtain ⟨name, count, hr⟩ := known_of_mem_calls h hf
  exact hfs.of_resolve hr args

namespace Eager

/-- What goes on from a bound expression is orderly if its evaluation is. -/
theorem orderly_of_bind {α : Type} (hfs : fs.AreOrderly) {e : Expr} {columns : List String}
    {scope : Scope} {next : Bound → Except Fault α}
    (h : ∀ x, (∀ d r, Orderly (x.eval d r)) → Orderly (next x)) :
    Orderly (Bound.bind e columns fs scope >>= next) :=
  (Bound.orderly_bind e columns fs scope).bind_of_ok fun x hx =>
    h x (Bound.orderly_eval_of_bind hfs hx)

theorem orderly_rowValues (hfs : fs.AreOrderly) (e : Expr) (t : Table) :
    Orderly (rowValues fs e t) :=
  orderly_of_bind hfs fun _ hx => .bind (Bound.orderly_ofTable t _) fun d =>
    .mapM (fun _ => .bind (hx d _) fun v => v.orderly_single) _

theorem orderly_groupValues (hfs : fs.AreOrderly) (groups : List (List Nat)) (e : Expr)
    (t : Table) : Orderly (groupValues fs groups e t) :=
  orderly_of_bind hfs fun _ hx => .bind (Bound.orderly_ofTable t _) fun d =>
    .mapM (fun _ => .bind (hx d _) fun v => v.orderly_single) _

theorem orderly_computed (hfs : fs.AreOrderly) (name : String) (e : Expr) (t : Table) :
    Orderly (computed fs name e t) :=
  .map (orderly_rowValues hfs e t)

theorem orderly_extend (hfs : fs.AreOrderly) (items : List (String × Expr)) (t : Table) :
    Orderly (extend fs items t) :=
  .foldlM (fun t (name, e) => .map (orderly_computed hfs name e t)) t items

theorem orderly_project (hfs : fs.AreOrderly) (items : List Selected) (t : Table) :
    Orderly (project fs items t) := by
  refine .bind (orderly_distinctOutputs _) fun _ => .map (.mapM (fun i => ?_) items)
  cases i with
  | column source label => exact .map (t.orderly_column source)
  | computed e label => exact orderly_computed hfs label e t

theorem orderly_groups (keys : List String) (t : Table) : Orderly (groups keys t) := by
  unfold groups
  refine .ite (by simp) ?_
  exact .map (.mapM (fun name => .map (t.orderly_column name)) keys)

theorem orderly_aggregate (hfs : fs.AreOrderly) (keys : List String) (items : List Reduced)
    (t : Table) : Orderly (aggregate fs keys items t) := by
  refine .bind (orderly_distinctOutputs _) fun _ => .bind (orderly_groups keys t) fun gs =>
    .map (.mapM (fun i => ?_) items)
  cases i with
  | key column label => exact .map (t.orderly_column column)
  | aggregate e label => exact .map (orderly_groupValues hfs gs e t)

theorem orderly_filter (hfs : fs.AreOrderly) (e : Expr) (t : Table) :
    Orderly (filter fs e t) :=
  .map (orderly_rowValues hfs e t)

theorem orderly_withKeys (columns : List (String × String)) (t : Table) :
    Orderly (withKeys columns t) :=
  .foldlM (fun t (source, _) => .map (t.orderly_column source)) t columns

/-- Once the joined columns have their new names, a join is orderly. -/
theorem orderly_join {p : JoinPlan} {left right : Table} {renames : List (String × String)}
    (h : p.renamedRight left.names right.names = .ok renames) : Orderly (join p left right) := by
  rw [join, h, ok_bind]
  refine .bind (orderly_withKeys _ left) fun l => .bind (orderly_withKeys _ _) fun r => ?_
  exact .bind (Table.orderly_join _ _ l r) fun joined => joined.orderly_select _

theorem freeOf_join (p : JoinPlan) (left right : Table) :
    FreeOf Fault.isOfRunner (join p left right) := by
  cases h : p.renamedRight left.names right.names with
  | error f =>
    rw [join, h]
    exact (FreeOf.error_iff f).2 (p.freeOf_renamedRight _ _ f h)
  | ok renames => exact (orderly_join h).runner

theorem orderly_sort (keys : List (String × Bool)) (t : Table) : Orderly (sort keys t) :=
  .map (.mapM (fun (name, _) => .map (t.orderly_column name)) keys)

end Eager

end

/-! ## Formulas and plans -/

namespace ColumnType

@[simp]
theorem orderly_operands (op : BinaryOp) (a b : ColumnType) : Orderly (operands op a b) := by
  unfold operands
  repeat' split
  all_goals simp

@[simp]
theorem orderly_promised (op : BinaryOp) (a b : ColumnType × Bool) :
    Orderly (promised op a b) := by
  have hoperands := orderly_operands op a.1 b.1
  unfold promised
  split
  · exact .ok _
  · exact .bind hoperands fun _ => .ite (by simp) (by simp)

@[simp]
theorem orderly_complemented (t : ColumnType) : Orderly t.complemented := by
  unfold complemented
  split <;> simp

@[simp]
theorem orderly_chosen (a b : ColumnType) : Orderly (chosen a b) := by
  unfold chosen
  split <;> simp

@[simp]
theorem orderly_reduced (a : Aggregate) (t : ColumnType) : Orderly (reduced a t) := by
  unfold reduced
  repeat' split
  all_goals simp

@[simp]
theorem orderly_sized (t : ColumnType) : Orderly t.sized := by
  unfold sized
  split <;> simp

end ColumnType

@[simp]
theorem Schema.orderly_typeOf (s : Schema) (name : String) : Orderly (s.typeOf name) := by
  unfold Schema.typeOf
  split <;> simp

@[simp]
theorem Spread.orderly_pair {α β : Type} (a : Spread α) (b : Spread β) : Orderly (a.pair b) := by
  unfold Spread.pair
  split <;> simp

namespace Values

theorem orderly_binary (op : BinaryOp) (known : Bool) (a b : Values) :
    Orderly (binary op known a b) :=
  .bind (ColumnType.orderly_operands op a.type b.type) fun _ => .map (Spread.orderly_pair _ _)

theorem orderly_choose (condition yes no : Values) : Orderly (choose condition yes no) :=
  .bind (ColumnType.orderly_chosen yes.type no.type) fun _ =>
    .bind (Spread.orderly_pair _ _) fun _ => .map (Spread.orderly_pair _ _)

theorem orderly_aggregate (a : Aggregate) (groups : Option (List (List Nat))) (v : Values) :
    Orderly (v.aggregate a groups) := by
  refine .bind (ColumnType.orderly_reduced a v.type) fun result => ?_
  split <;> simp

end Values

namespace Formula

theorem orderly_typeOver (s : Schema) (f : Formula) : Orderly (f.typeOver s) := by
  induction f with
  | const x => simp [typeOver]
  | column name => simp [typeOver]
  | rowCount => simp [typeOver]
  | binary op l r hl hr => exact .bind hl fun _ => .bind hr fun _ => by simp
  | not f h | isNull f negated h | present f h | truth f h | aggregate a f h | size f h =>
    exact .bind h fun _ => by simp
  | repeated f h => exact h
  | choose c y n hc hy hn => exact .bind hc fun _ => .bind hy fun _ => .bind hn fun _ => by simp

theorem orderly_eval (s : Schema) (t : Table) (groups : Option (List (List Nat)))
    (f : Formula) : Orderly (f.eval s t groups) := by
  induction f with
  | const x => simp [eval]
  | column name => simp [eval]
  | rowCount => simp [eval]
  | binary op l r hl hr =>
    refine .bind (orderly_typeOver s l) fun _ => .bind (orderly_typeOver s r) fun _ => ?_
    refine .bind (ColumnType.orderly_operands op _ _) fun _ => .bind hl fun _ => .bind hr fun _ => ?_
    exact Values.orderly_binary op _ _ _
  | not f h | isNull f negated h | present f h | truth f h | repeated f h | size f h =>
    exact .bind h fun _ => by simp
  | aggregate a f h =>
    refine .bind h fun v => ?_
    split
    · simp
    · exact v.orderly_aggregate a groups
  | choose c y n hc hy hn =>
    refine .bind (orderly_typeOver s y) fun _ => .bind (orderly_typeOver s n) fun _ => ?_
    refine .bind (ColumnType.orderly_chosen _ _) fun _ => .bind hy fun _ => .bind hn fun _ => ?_
    exact .bind hc fun _ => Values.orderly_choose _ _ _

mutual

theorem orderly_ofExpr {columns : List String} {functions : Functions} {scope : Scope}
    (inAggregate : Bool) (e : Expr) : Orderly (ofExpr columns functions scope inAggregate e) := by
  cases e with
  | literal x => simp [ofExpr]
  | column name => simp [ofExpr]
  | countStar => simp [ofExpr]
  | call name args =>
    unfold ofExpr
    split
    · refine .bind (Scope.orderly_admit _ _ _) fun _ => ?_
      refine .ite (.bind (by simp) fun _ => ?_) ?_ <;>
      · refine .bind (orderly_ofExprs true args) fun xs => ?_
        split <;> simp
    · refine .bind (by simp) fun f => .bind (orderly_ofExprs inAggregate args) fun fs => ?_
      exact .mapError fun _ => rfl
  | neg e | not e | isNull e negated => exact .map (orderly_ofExpr inAggregate e)
  | binary op l r =>
    exact .bind (orderly_ofExpr inAggregate l) fun _ => .map (orderly_ofExpr inAggregate r)
  | inList e items negated =>
    exact .bind (orderly_ofExpr inAggregate e) fun _ => .map (orderly_ofExprs inAggregate items)

theorem orderly_ofExprs {columns : List String} {functions : Functions} {scope : Scope}
    (inAggregate : Bool) (es : List Expr) :
    Orderly (ofExprs columns functions scope inAggregate es) := by
  cases es with
  | nil => simp [ofExprs]
  | cons e es =>
    exact .bind (orderly_ofExpr inAggregate e) fun _ => .map (orderly_ofExprs inAggregate es)

end

theorem orderly_condition (f : Formula) (s : Schema) : Orderly (f.condition s) :=
  .bind (orderly_typeOver s f) fun _ => .ite (by simp) (by simp)

end Formula

namespace Table

variable (s : Schema) (t : Table)

theorem orderly_outputs (outputs : List Output) :
    Orderly (outputs.mapM fun (name, f) => do return (name, ← f.eval s t none)) :=
  .mapM (fun (_, f) => .map (f.orderly_eval s t none)) outputs

theorem orderly_project (outputs : List Output) : Orderly (t.project s outputs) :=
  .bind (orderly_distinct _) fun _ => .map (orderly_outputs s t outputs)

theorem orderly_extend (outputs : List Output) : Orderly (t.extend s outputs) :=
  .bind (orderly_distinct _) fun _ => .map (orderly_outputs s t outputs)

theorem orderly_keep (mask : Formula) : Orderly (t.keep s mask) :=
  .map (mask.orderly_eval s t none)

theorem orderly_aggregate (keys : List String) (outputs : List Output) :
    Orderly (t.aggregate s keys outputs) := by
  refine .bind (orderly_distinct _) fun _ => ?_
  refine .bind (.mapM t.orderly_column keys) fun _ => .map (.mapM (fun output => ?_) outputs)
  refine .bind (output.2.orderly_eval s t _) fun v => ?_
  split <;> simp

theorem orderly_sort (keys : List (String × Bool)) : Orderly (t.sort keys) :=
  .map (.mapM (fun (name, _) => .map (t.orderly_column name)) keys)

end Table

namespace Schema

theorem orderly_ofOutputs (s : Schema) (outputs : List Output) : Orderly (s.ofOutputs outputs) :=
  .bind (Table.orderly_distinct _) fun _ =>
    .mapM (fun (_, f) => .map (f.orderly_typeOver s)) outputs

theorem orderly_select (s : Schema) (names : List String) : Orderly (s.select names) :=
  .mapM (fun name => .map (s.orderly_typeOf name)) names

end Schema

namespace Plan

/-- Looking at the columns of a plan is orderly. -/
theorem orderly_schema (p : Plan) : Orderly p.schema := by
  induction p with
  | scan t => simp [schema]
  | project outputs p h => exact .bind h fun s => s.orderly_ofOutputs outputs
  | extend outputs p h => exact .bind h fun s => .map (s.orderly_ofOutputs outputs)
  | keep mask p h => exact .bind h fun s => .map (mask.orderly_typeOver s)
  | join mode on l r hl hr =>
    exact .bind hl fun _ => .bind hr fun _ => .map (Table.orderly_join mode on _ _)
  | aggregate keys outputs p h =>
    exact .bind h fun s => .bind (Table.orderly_distinct _) fun _ =>
      .bind (s.orderly_select keys) fun _ => .map (s.orderly_ofOutputs outputs)
  | sort keys p h => exact .bind h fun s => .map (s.orderly_select _)
  | window offset count p h => exact h
  | rename names p h => exact .map h

/-- Making the table of a plan is orderly. -/
theorem orderly_collect (p : Plan) : Orderly p.collect := by
  induction p with
  | scan t => simp [collect]
  | project outputs p h =>
    exact .bind h fun t => .bind p.orderly_schema fun s => t.orderly_project s outputs
  | extend outputs p h =>
    exact .bind h fun t => .bind p.orderly_schema fun s => t.orderly_extend s outputs
  | keep mask p h =>
    exact .bind h fun t => .bind p.orderly_schema fun s => t.orderly_keep s mask
  | join mode on l r hl hr => exact .bind hl fun _ => .bind hr fun _ => Table.orderly_join mode on _ _
  | aggregate keys outputs p h =>
    exact .bind h fun t => .bind p.orderly_schema fun s => t.orderly_aggregate s keys outputs
  | sort keys p h => exact .bind h fun t => t.orderly_sort keys
  | window offset count p h => exact .map h
  | rename names p h => exact .map h

theorem orderly_names (p : Plan) : Orderly p.names :=
  .map p.orderly_schema

end Plan

/-! ## The deferred engine -/

namespace Deferred

variable {fs : Functions}

theorem orderly_lowered (scope : Scope) (e : Expr) (s : Schema) :
    Orderly (lowered fs scope e s) :=
  Formula.orderly_ofExpr false e

theorem orderly_extend (items : List (String × Expr)) (p : Plan) :
    Orderly (extend fs items p) :=
  .bind p.orderly_schema fun s =>
    .map (.mapM (fun (_, e) => .map (orderly_lowered .row e s)) items)

theorem orderly_project (items : List Selected) (p : Plan) : Orderly (project fs items p) := by
  refine .bind (orderly_distinctOutputs _) fun _ => .bind p.orderly_schema fun s => ?_
  refine .map (.mapM (fun i => ?_) items)
  cases i with
  | column source label => simp
  | computed e label => exact .map (orderly_lowered .row e s)

theorem orderly_reductions (s : Schema) (n : Nat) (items : List Reduced) :
    Orderly (reductions fs s n items) := by
  induction items generalizing n with
  | nil => simp [reductions]
  | cons i items ih =>
    cases i with
    | key column label => exact .map (ih n)
    | aggregate e label => exact .bind (orderly_lowered .group e s) fun _ => .map (ih (n + 1))

theorem orderly_aggregate (keys : List String) (items : List Reduced) (p : Plan) :
    Orderly (aggregate fs keys items p) := by
  refine .bind (orderly_distinctOutputs _) fun _ => .bind p.orderly_schema fun s => ?_
  refine .ite (.map (.mapM (fun i => ?_) items)) (.map (orderly_reductions s 0 items))
  cases i with
  | key column label => simp
  | aggregate e label => exact .map (orderly_lowered .group e s)

theorem orderly_filter (e : Expr) (p : Plan) : Orderly (filter fs e p) :=
  .bind p.orderly_schema fun s => .bind (orderly_lowered .row e s) fun f =>
    .map (f.orderly_condition s)

theorem freeOf_join (p : JoinPlan) (left right : Plan) :
    FreeOf Fault.isOfRunner (join p left right) :=
  .bind left.orderly_names.runner fun _ => .bind right.orderly_names.runner fun _ =>
    .map (p.freeOf_renamedRight _ _)

end Deferred

/-! ## Either engine, and the session -/

namespace Relation

theorem orderly_names (r : Relation) : Orderly r.names := by
  cases r with
  | frame t => simp [names]
  | plan p => exact p.orderly_names

theorem orderly_collect (r : Relation) : Orderly r.collect := by
  cases r with
  | frame t => simp [collect]
  | plan p => exact p.orderly_collect

end Relation

namespace Engine

variable {fs : Functions} (e : Engine)

theorem orderly_apply {onTable : Table → Except Fault Table} {onPlan : Plan → Except Fault Plan}
    (ht : ∀ t, Orderly (onTable t)) (hp : ∀ p, Orderly (onPlan p)) (r : Relation) :
    Orderly (e.apply onTable onPlan r) := by
  cases e with
  | eager => exact .bind r.orderly_collect fun t => .map (ht t)
  | deferred => exact .map (hp r.toPlan)

theorem orderly_extend (hfs : fs.AreOrderly) (items : List (String × Expr)) (r : Relation) :
    Orderly (e.extend fs items r) :=
  e.orderly_apply (Eager.orderly_extend hfs items) (Deferred.orderly_extend items) r

theorem orderly_project (hfs : fs.AreOrderly) (items : List Selected) (r : Relation) :
    Orderly (e.project fs items r) :=
  e.orderly_apply (Eager.orderly_project hfs items) (Deferred.orderly_project items) r

theorem orderly_aggregate (hfs : fs.AreOrderly) (keys : List String) (items : List Reduced)
    (r : Relation) : Orderly (e.aggregate fs keys items r) :=
  e.orderly_apply (Eager.orderly_aggregate hfs keys items)
    (Deferred.orderly_aggregate keys items) r

theorem orderly_filter (hfs : fs.AreOrderly) (condition : Expr) (r : Relation) :
    Orderly (e.filter fs condition r) :=
  e.orderly_apply (Eager.orderly_filter hfs condition) (Deferred.orderly_filter condition) r

theorem freeOf_join (p : JoinPlan) (left right : Relation) :
    FreeOf Fault.isOfRunner (e.join p left right) := by
  cases e with
  | eager =>
    exact .bind left.orderly_collect.runner fun l => .bind right.orderly_collect.runner fun r =>
      .map (Eager.freeOf_join p l r)
  | deferred => exact .map (Deferred.freeOf_join p left.toPlan right.toPlan)

theorem orderly_adopt (r : Relation) : Orderly (e.adopt r) :=
  e.orderly_apply FreeOf.ok FreeOf.ok r

theorem orderly_sort (keys : List (String × Bool)) (r : Relation) : Orderly (e.sort keys r) :=
  e.orderly_apply (Eager.orderly_sort keys) (fun _ => .ok _) r

theorem orderly_window (offset count : UInt64) (r : Relation) :
    Orderly (e.window offset count r) :=
  e.orderly_apply (fun _ => .ok _) (fun _ => .ok _) r

theorem orderly_select (names : List String) (r : Relation) : Orderly (e.select names r) :=
  e.orderly_apply (fun t => t.orderly_select names) (fun _ => .ok _) r

end Engine

namespace Session

theorem orderly_fromLoaders (name : String) (ls : List Loader) :
    Orderly (fromLoaders name ls) := by
  induction ls with
  | nil => simp [fromLoaders]
  | cons l ls ih =>
    unfold fromLoaders
    split
    · simp
    · exact ih

theorem orderly_resolveTable (name : String) (s : Session) : Orderly (s.resolveTable name) := by
  unfold resolveTable
  split
  · simp
  · exact orderly_fromLoaders name s.loaders

theorem orderly_configBool (key : String) (default : Bool) (s : Session) :
    Orderly (s.configBool key default) := by
  unfold configBool
  split <;> simp

end Session

end TableQuery
