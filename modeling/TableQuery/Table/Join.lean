import TableQuery.Operator.Basic
import TableQuery.Table.Basic

/-!
# Joining tables

Two rows belong together if they agree in every pair of key columns and no key is missing. An inner
join lists the pairs by their left row and then by their right row; a left join also keeps, in its
place, each left row without partner. A right join goes by the right rows first.
-/

namespace TableQuery

namespace JoinMode

/-- The partners of the rows `0, …, n - 1` by a relation to the rows `0, …, m - 1`. -/
def partners (related : Nat → Nat → Bool) (m : Nat) (i : Nat) : List Nat :=
  (List.range m).filter (related i)

/-- The pairs of left and right rows that make the rows of a join of tables with `n` and `m`
rows. -/
def pairs (mode : JoinMode) (related : Nat → Nat → Bool) (n m : Nat) :
    List (Option Nat × Option Nat) :=
  match mode with
  | .inner =>
    (List.range n).flatMap fun i =>
      (partners related m i).map fun j => (some i, some j)
  | .left =>
    (List.range n).flatMap fun i =>
      match partners related m i with
      | [] => [(some i, none)]
      | js => js.map fun j => (some i, some j)
  | .right =>
    (List.range m).flatMap fun j =>
      match partners (fun j i => related i j) n j with
      | [] => [(none, some j)]
      | is => is.map fun i => (some i, some j)

end JoinMode

namespace Table

/-- Whether the rows of two tables agree in the keys; missing keys agree with nothing. -/
def related (keys : List (Array Cell × Array Cell)) (i j : Nat) : Bool :=
  keys.all fun (l, r) =>
    match l[i]?, r[j]? with
    | some x, some y => !x.isNull && x.same y
    | _, _ => false

/-- Cells of the pairs of columns by which two tables are joined. -/
def keyCells (left right : Table) (on : List (String × String)) :
    Except Fault (List (Array Cell × Array Cell)) :=
  on.mapM fun (l, r) => do
    let a ← left.column l
    let b ← right.column r
    if a.type ≠ b.type then throw (.columns (.types a.type.name b.type.name))
    return (a.cells.toArray, b.cells.toArray)

/-- A name for a further column, changed if it is taken. -/
def freshName (taken : List String) (name : String) : String :=
  if taken.contains name then name ++ "_right" else name

/-- The table on one side of a join without its keys, or with them on the side whose rows are all
kept. -/
def without (names : List String) (t : Table) : Table :=
  ⟨t.columns.filter fun c => !names.contains c.name⟩

/-- The columns of a join: the side that is kept whole with its keys, the other one without. A name
on the right that is taken on the left gets an ending. -/
def join (mode : JoinMode) (on : List (String × String)) (left right : Table) :
    Except Fault Table := do
  if on.isEmpty then throw (.columns (.unsupported "join without keys"))
  let keys ← keyCells left right on
  let rows := mode.pairs (related keys) left.height right.height
  let (l, r) := match mode with
    | .right => (left.without (on.map Prod.fst), right)
    | _ => (left, right.without (on.map Prod.snd))
  let columns := l.columns.map (Column.take (rows.map Prod.fst)) ++
    (r.rename (freshName l.names)).columns.map (Column.take (rows.map Prod.snd))
  distinct (columns.map Column.name)
  return ⟨columns⟩

end Table

end TableQuery
