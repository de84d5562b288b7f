import TableQuery.Formula.Eval
import TableQuery.JoinPlan
import TableQuery.Table.Group
import TableQuery.Table.Join
import TableQuery.Table.Sort

/-!
# Deferred tables

A plan says how a table is made from tables at hand, and makes it only on demand. The names of its
columns, the types that they are promised in, and every fault that follows from these show before
anything is computed.
-/

namespace TableQuery

/-- A named formula. -/
abbrev Output := String × Formula

namespace Table

/-- The table of the given formulas. If each has but one value, so has the result; otherwise single
values stand in every row. -/
def project (s : Schema) (outputs : List Output) (t : Table) : Except Fault Table := do
  distinct (outputs.map Prod.fst)
  let values ← outputs.mapM fun (name, f) => do return (name, ← f.eval s t none)
  let height := if values.all fun (_, v) => v.cells.isConstant then 1 else t.height
  return ⟨values.map fun (name, v) => v.toColumn name height⟩

/-- The table with further columns, each computed from the columns that were there before. -/
def extend (s : Schema) (outputs : List Output) (t : Table) : Except Fault Table := do
  distinct (outputs.map Prod.fst)
  let values ← outputs.mapM fun (name, f) => do return (name, ← f.eval s t none)
  return values.foldl (fun t' (name, v) => t'.put (v.toColumn name t.height)) t

/-- The rows for which a formula says yes. -/
def keep (s : Schema) (mask : Formula) (t : Table) : Except Fault Table := do
  let v ← mask.eval s t none
  return t.filter ((v.cells.toList t.height).map fun c => c.truth? == some true)

/-- Whether two rows of keys are the same. -/
def sameKeys (a b : List Cell) : Bool :=
  (a.zip b).all fun (x, y) => x.same y

/-- The value of a formula for each group of rows, which has to be one cell. -/
def evalGroups (s : Schema) (groups : List (List Nat)) (t : Table) (output : Output) :
    Except Fault Column := do
  let v ← output.2.eval s t (some groups)
  match v.cells with
  | .perRow _ => throw (.columns (.unsupported "list"))
  | _ => return v.toColumn output.1 groups.length

/-- One row for each group of rows with the same keys: the keys, and the given formulas. -/
def aggregate (s : Schema) (keys : List String) (outputs : List Output) (t : Table) :
    Except Fault Table := do
  distinct (keys ++ outputs.map Prod.fst)
  let keyColumns ← keys.mapM t.column
  let cells := keyColumns.map fun c => c.cells.toArray
  let groups := groupRows sameKeys
    (fun row => cells.map fun column => column.getD row .null) t.height
  let firstRows := groups.map fun (_, rows) => rows.head?
  let reduced ← outputs.mapM (evalGroups s (groups.map Prod.snd) t)
  return ⟨keyColumns.map (Column.take firstRows) ++ reduced⟩

/-- The rows sorted by columns, each with its direction; missing keys last. -/
def sort (keys : List (String × Bool)) (t : Table) : Except Fault Table := do
  let values ← keys.mapM fun (name, descending) => do
    return ((← t.column name).cells.toArray, descending)
  return t.take (sortedRows Cell.isNull Cell.orderMissingLast values t.height)

end Table

inductive Plan where
  | scan (table : Table)
  | project (outputs : List Output) (input : Plan)
  | extend (outputs : List Output) (input : Plan)
  | keep (mask : Formula) (input : Plan)
  | join (mode : JoinMode) (on : List (String × String)) (left right : Plan)
  | aggregate (keys : List String) (outputs : List Output) (input : Plan)
  | sort (keys : List (String × Bool)) (input : Plan)
  | window (offset count : Nat) (input : Plan)
  | rename (names : List (String × String)) (input : Plan)
  deriving Inhabited

namespace Schema

/-- The names and types of formulas over columns of the given types. -/
def ofOutputs (s : Schema) (outputs : List Output) : Except Fault Schema := do
  Table.distinct (outputs.map Prod.fst)
  outputs.mapM fun (name, f) => do return (name, ← f.typeOver s)

/-- The schema with a column put in place of the one of its name, or at the end. -/
def put (s : Schema) (column : String × ColumnType) : Schema :=
  if (s.map Prod.fst).contains column.1 then
    s.map fun c => if c.1 = column.1 then column else c
  else s ++ [column]

/-- The given columns. -/
def select (s : Schema) (names : List String) : Except Fault Schema :=
  names.mapM fun name => do return (name, ← s.typeOf name)

end Schema

namespace Plan

/-- The names of the columns and the types that they are promised in. -/
def schema : Plan → Except Fault Schema
  | .scan t => .ok t.schema
  | .project outputs p => do (← p.schema).ofOutputs outputs
  | .extend outputs p => do
    let s ← p.schema
    return (← s.ofOutputs outputs).foldl Schema.put s
  | .keep mask p => do
    let s ← p.schema
    let _ ← mask.typeOver s
    return s
  | .join mode on l r => do
    return (← Table.join mode on (.ofSchema (← l.schema)) (.ofSchema (← r.schema))).schema
  | .aggregate keys outputs p => do
    let s ← p.schema
    Table.distinct (keys ++ outputs.map Prod.fst)
    return (← s.select keys) ++ (← s.ofOutputs outputs)
  | .sort keys p => do
    let s ← p.schema
    let _ ← s.select (keys.map Prod.fst)
    return s
  | .window _ _ p => p.schema
  | .rename names p => do
    return (← p.schema).map fun c => (JoinPlan.newName names c.1, c.2)

/-- Make the table. -/
def collect : Plan → Except Fault Table
  | .scan t => .ok t
  | .project outputs p => do (← p.collect).project (← p.schema) outputs
  | .extend outputs p => do (← p.collect).extend (← p.schema) outputs
  | .keep mask p => do (← p.collect).keep (← p.schema) mask
  | .join mode on l r => do Table.join mode on (← l.collect) (← r.collect)
  | .aggregate keys outputs p => do (← p.collect).aggregate (← p.schema) keys outputs
  | .sort keys p => do (← p.collect).sort keys
  | .window offset count p => do return (← p.collect).window offset count
  | .rename names p => do return (← p.collect).rename (JoinPlan.newName names)

/-- The names of the columns. -/
def names (p : Plan) : Except Fault (List String) := do
  return (← p.schema).map Prod.fst

end Plan

/-- A table at hand or deferred. -/
inductive Relation where
  | frame (table : Table)
  | plan (plan : Plan)
  deriving Inhabited

namespace Relation

/-- Which of the two it is. -/
def kind : Relation → String
  | .frame _ => "frame"
  | .plan _ => "lazy"

/-- The names of the columns. -/
def names : Relation → Except Fault (List String)
  | .frame t => .ok t.names
  | .plan p => p.names

/-- The table itself. -/
def collect : Relation → Except Fault Table
  | .frame t => .ok t
  | .plan p => p.collect

/-- The plan to make the table. -/
def toPlan : Relation → Plan
  | .frame t => .scan t
  | .plan p => p

/-- The size of a table at hand, as shown to a reader. -/
def shown : Relation → String
  | .frame t => s!"Table::Frame({t.height}x{t.columns.length})"
  | .plan _ => "Table::Lazy(..)"

end Relation

end TableQuery
