import TableQuery.Aggregate.Reduce
import TableQuery.Bound.Basic

/-!
# Evaluating bound expressions

The columns that an expression reads are taken from the table once. The expression is then evaluated
for one row, where every column is a single value, or for the rows of a group, where a column is a
list of values and an aggregate reduces it to one.
-/

namespace TableQuery

/-- The columns taken from a table, as values. -/
structure Loaded where
  columns : List (String × Array Scalar)
  height : Nat
  deriving Inhabited

namespace Loaded

/-- Take the named columns from a table. -/
def ofTable (t : Table) (names : List String) : Except Fault Loaded := do
  let columns ← names.mapM fun name => do
    return (name, (← t.column name).scalars.toArray)
  return ⟨columns, t.height⟩

/-- The values of a column. -/
def values (d : Loaded) (name : String) : Except Fault (Array Scalar) :=
  match d.columns.lookup name with
  | some xs => .ok xs
  | none => .error (.execution (.notLoaded name))

end Loaded

/-- The rows that an expression is evaluated for. -/
inductive Rows where
  | single (row : Nat)
  | group (rows : List Nat)
  deriving Repr, Inhabited

namespace Rows

/-- How many rows there are. -/
def count : Rows → Nat
  | .single _ => 1
  | .group rows => rows.length

/-- The values of a column in the rows; where there is no row, there is null. -/
def column (d : Loaded) (name : String) (r : Rows) : Except Fault (Datum Scalar) := do
  let xs ← d.values name
  match r with
  | .single row => return .one (xs[row]?.getD .null)
  | .group rows => return .many (rows.map fun row => xs[row]?.getD .null)

end Rows

namespace Bound

/-- Whether a value has been found among others, with one more comparison. -/
def found (before hit : Scalar) : Scalar :=
  match before, hit with
  | .bool true, _ => .bool true
  | _, .bool true => .bool true
  | .null, _ => .null
  | _, .null => .null
  | _, _ => .bool false

section

variable (d : Loaded) (r : Rows)

mutual

/-- The value of a bound expression for the given rows. -/
def eval : Bound → Except Fault (Datum Scalar)
  | .const x => .ok (.one x)
  | .column name => r.column d name
  | .rowCount => .ok (.one (.int (.ofNat r.count)))
  | .call _ f args => do f.apply (← evalAll args)
  | .aggregate a x => do return .one (← a.reduce ((← eval x).toList r.count))
  | .neg x => do (← eval x).mapM Scalar.negate
  | .not x => do return (← eval x).map Scalar.complement
  | .binary op x y => do Datum.zipM (Scalar.binary op) (← eval x) (← eval y)
  | .isNull x negated => do return (← eval x).map fun v => .bool (v.isNull != negated)
  | .inList x items negated => do
    let target ← eval x
    let start := target.map fun v => if v.isNull then Scalar.null else .bool false
    let hits ← evalItems target start items
    return if negated then hits.map Scalar.complement else hits

def evalAll : List Bound → Except Fault (List (Datum Scalar))
  | [] => .ok []
  | x :: xs => do return (← eval x) :: (← evalAll xs)

/-- Compare a value with one item after the other. -/
def evalItems (target before : Datum Scalar) : List Bound → Except Fault (Datum Scalar)
  | [] => .ok before
  | x :: xs => do
    let hit ← Datum.zipM (Scalar.binary .eq) target (← eval x)
    let now ← Datum.zipM (fun a h => .ok (found a h)) before hit
    evalItems target now xs

end

end

/-- The value in every row. -/
def evalRows (x : Bound) (d : Loaded) : Except Fault (List Scalar) :=
  (List.range d.height).mapM fun row => do (← x.eval d (.single row)).single

/-- The value for every group of rows. -/
def evalGroups (x : Bound) (d : Loaded) (groups : List (List Nat)) : Except Fault (List Scalar) :=
  groups.mapM fun rows => do (← x.eval d (.group rows)).single

end Bound

end TableQuery
