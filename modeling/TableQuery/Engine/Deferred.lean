import TableQuery.Engine.Selection
import TableQuery.Formula.Lowering
import TableQuery.Plan

/-!
# The deferred engine

Every operator extends a plan. Expressions become formulas over the columns that the plan has, and
nothing is computed until the table is asked for.
-/

namespace TableQuery.Deferred

/-- Outputs that copy columns under their own names. -/
def copies (names : List String) : List Output :=
  names.map fun name => (name, .column name)

section

variable (functions : Functions)

/-- The formula of an expression over the columns of a plan. -/
def lowered (scope : Scope) (e : Expr) (s : Schema) : Except Fault Formula :=
  Formula.lower e (s.map Prod.fst) functions scope

/-- Add computed columns, all from the columns that were there before. -/
def extend (items : List (String × Expr)) (p : Plan) : Except Fault Plan := do
  let s ← p.schema
  let outputs ← items.mapM fun (name, e) => do return (name, ← lowered functions .row e s)
  return .extend outputs p

/-- The selected columns. -/
def project (items : List Selected) (p : Plan) : Except Fault Plan := do
  distinctOutputs (items.map Selected.label)
  let s ← p.schema
  let outputs ← items.mapM fun
    | .column source label => return (label, .column source)
    | .computed e label => do return (label, ← lowered functions .row e s)
  return .project outputs p

/-- The helper column of the aggregate at a place. -/
def helper (i : Nat) : String := s!"__fq_agg_{i}"

/-- The formulas of a grouped selection, the aggregates with numbers from `n` on: what is computed
for each group, and how the result is made of that and the keys. -/
def reductions (s : Schema) (n : Nat) : List Reduced → Except Fault (List Output × List Output)
  | [] => .ok ([], [])
  | .key column label :: items => do
    let (aggregates, outputs) ← reductions s n items
    return (aggregates, (label, .column column) :: outputs)
  | .aggregate e label :: items => do
    let f ← lowered functions .group e s
    let (aggregates, outputs) ← reductions s (n + 1) items
    return ((helper n, f) :: aggregates, (label, .column (helper n)) :: outputs)

/-- One row for each group. Without keys there is no group to make, and the aggregates are taken
over the whole table. -/
def aggregate (keys : List String) (items : List Reduced) (p : Plan) : Except Fault Plan := do
  distinctOutputs (items.map Reduced.label)
  let s ← p.schema
  if keys.isEmpty then
    let outputs ← items.mapM fun
      | .key column label => return (label, .aggregate .first (.column column))
      | .aggregate e label => do return (label, ← lowered functions .group e s)
    return .project outputs p
  let (aggregates, outputs) ← reductions functions s 0 items
  return .project outputs (.aggregate keys aggregates p)

/-- The rows for which a condition says yes. -/
def filter (e : Expr) (p : Plan) : Except Fault Plan := do
  let s ← p.schema
  let f ← lowered functions .row e s
  return .keep (← Formula.condition f s) p

end

/-- The plan with a column under a further name. -/
def withKeys (columns : List (String × String)) (p : Plan) : Plan :=
  columns.foldl (fun p (source, name) => .extend [(name, .column source)] p) p

/-- The tables joined by helper columns that hold the keys. -/
def join (p : JoinPlan) (left right : Plan) : Except Fault Plan := do
  let names ← left.names
  let renames ← p.renamedRight names (← right.names)
  let keys := p.numberedKeys
  let l := withKeys (keys.map fun (i, l, _) => (l, JoinPlan.hiddenLeft i)) left
  let r := withKeys
    (keys.map fun (i, _, r) => (JoinPlan.newName renames r, JoinPlan.hiddenRight i))
    (.rename renames right)
  let joined := Plan.join p.mode
    (keys.map fun (i, _, _) => (JoinPlan.hiddenLeft i, JoinPlan.hiddenRight i)) l r
  return .project (copies (names ++ renames.map Prod.snd)) joined

/-- So many rows behind so many others; a plan counts rows with 32 bits, and places with 63. -/
def window (offset count : UInt64) (p : Plan) : Plan :=
  .window (min offset.toNat (UInt64.size / 2 - 1)) (min count.toNat (UInt32.size - 1)) p

end TableQuery.Deferred
