import TableQuery.Bound.Eval
import TableQuery.Engine.Selection
import TableQuery.Formula.Lowering
import TableQuery.Plan

/-!
# The eager engine

Every operator works on a table at hand. Expressions are evaluated row by row or group by group; the
column of their values then gets the type that the formula of the expression would have, as far as
the values can take it without changing their nature.
-/

namespace TableQuery

namespace ColumnType

/-- Whether computed values of one type may be given another one. -/
def takesOn (computed target : ColumnType) : Bool :=
  computed = .null ||
    (computed.isInteger && (target.isInteger || target.isFloat || target = .date)) ||
    (computed.isFloat && (target.isFloat || target.isDecimal))

end ColumnType

namespace Eager

section

variable (functions : Functions)

/-- The values of an expression in every row. -/
def rowValues (e : Expr) (t : Table) : Except Fault (List Scalar) := do
  let x ← Bound.bind e t.names functions .row
  x.evalRows (← Loaded.ofTable t x.referenced)

/-- The values of an expression for groups of rows. -/
def groupValues (groups : List (List Nat)) (e : Expr) (t : Table) :
    Except Fault (List Scalar) := do
  let x ← Bound.bind e t.names functions .group
  x.evalGroups (← Loaded.ofTable t x.referenced) groups

/-- Computed values as a column of the type that the expression has over the table. -/
def conform (scope : Scope) (e : Expr) (t : Table) (c : Column) : Column :=
  match Formula.typeOfExpr e t.schema functions scope with
  | .error _ => c
  | .ok target => if c.type.takesOn target then c.cast target else c

/-- The column of an expression, one value per row. -/
def computed (name : String) (e : Expr) (t : Table) : Except Fault Column := do
  return conform functions .row e t (.ofScalars name (← rowValues functions e t))

/-- Add computed columns one after the other, so that later ones see the earlier ones. -/
def extend (items : List (String × Expr)) (t : Table) : Except Fault Table :=
  items.foldlM (fun t (name, e) => do return t.put (← computed functions name e t)) t

/-- The selected columns. -/
def project (items : List Selected) (t : Table) : Except Fault Table := do
  distinctOutputs (items.map Selected.label)
  let columns ← items.mapM fun
    | .column source label => do return { ← t.column source with name := label }
    | .computed e label => computed functions label e t
  return ⟨columns⟩

/-- The groups of rows with the same keys; without keys all rows are one group. -/
def groups (keys : List String) (t : Table) : Except Fault (List (List Nat)) := do
  if keys.isEmpty then return [List.range t.height]
  let values ← keys.mapM fun name => do return (← t.column name).scalars.toArray
  let identities (row : Nat) : List Scalar.Identity :=
    values.map fun xs => (xs.getD row .null).identity
  return (groupRows (fun a b => decide (a = b)) identities t.height).map Prod.snd

/-- One row for each group. -/
def aggregate (keys : List String) (items : List Reduced) (t : Table) : Except Fault Table := do
  distinctOutputs (items.map Reduced.label)
  let gs ← groups keys t
  let firstRows := gs.filterMap List.head?
  let columns ← items.mapM fun
    | .key column label => do
      return { (← t.column column).take (firstRows.map some) with name := label }
    | .aggregate e label => do
      return conform functions .group e t (.ofScalars label (← groupValues functions gs e t))
  return ⟨columns⟩

/-- The rows for which a condition says yes. -/
def filter (e : Expr) (t : Table) : Except Fault Table := do
  return t.filter ((← rowValues functions e t).map Scalar.holds)

end

/-- Put the key columns of a join under their helper names. -/
def withKeys (columns : List (String × String)) (t : Table) : Except Fault Table :=
  columns.foldlM (fun t (source, name) => do
    return t.put { ← t.column source with name := name }) t

/-- The tables joined by helper columns that hold the keys. -/
def join (p : JoinPlan) (left right : Table) : Except Fault Table := do
  let renames ← p.renamedRight left.names right.names
  let keys := p.numberedKeys
  let l ← withKeys (keys.map fun (i, l, _) => (l, JoinPlan.hiddenLeft i)) left
  let r ← withKeys
    (keys.map fun (i, _, r) => (JoinPlan.newName renames r, JoinPlan.hiddenRight i))
    (right.rename (JoinPlan.newName renames))
  let joined ← Table.join p.mode
    (keys.map fun (i, _, _) => (JoinPlan.hiddenLeft i, JoinPlan.hiddenRight i)) l r
  joined.select (left.names ++ renames.map Prod.snd)

/-- The rows sorted by columns, each with its direction. -/
def sort (keys : List (String × Bool)) (t : Table) : Except Fault Table := do
  let values ← keys.mapM fun (name, descending) => do
    return ((← t.column name).scalars.toArray, descending)
  return t.take (sortedRows Scalar.isNull Scalar.sortCompare values t.height)

/-- So many rows behind so many others. -/
def window (offset count : UInt64) (t : Table) : Table :=
  t.window (min offset.toNat t.height) count.toNat

end Eager

end TableQuery
