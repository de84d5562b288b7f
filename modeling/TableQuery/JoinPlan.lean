import TableQuery.Fault
import TableQuery.Operator.Basic

/-!
# Planning a join

The two columns of a join key may be written in either order. A column that carries the alias of the
joined table belongs to that table; where the aliases do not decide, the order in which both columns
resolve does. Columns of the joined table whose names are taken get its alias in front.
-/

namespace TableQuery

/-- A join whose keys are attributed to the two tables. -/
structure JoinPlan where
  mode : JoinMode
  label : String
  leftOn : List String
  rightOn : List String
  deriving DecidableEq, Repr, Inhabited

namespace JoinKey

/-- The columns of a key as written, the one of the joined table last. -/
def oriented (label : String) (left right : List String) (k : JoinKey) :
    Except Fault (String × String) :=
  let fits (l r : String) : Bool := (Name.resolve? l left).isSome && (Name.resolve? r right).isSome
  match Name.qualifier k.first == some label, Name.qualifier k.second == some label with
  | false, true => .ok (k.first, k.second)
  | true, false => .ok (k.second, k.first)
  | _, _ =>
    if fits k.first k.second then .ok (k.first, k.second)
    else if fits k.second k.first then .ok (k.second, k.first)
    else .error (.join (.unattributed k.first k.second label))

/-- The columns of the two tables that a key compares. -/
def assign (label : String) (left right : List String) (k : JoinKey) :
    Except Fault (String × String) := do
  let (l, r) ← k.oriented label left right
  return (← Name.resolve l left, ← Name.resolve r right)

end JoinKey

namespace JoinPlan

/-- The plan of a join with the given keys. -/
def ofKeys (mode : JoinMode) (label : String) (on : List JoinKey) (left right : List String) :
    Except Fault JoinPlan := do
  let pairs ← on.mapM (JoinKey.assign label left right)
  return ⟨mode, label, pairs.map Prod.fst, pairs.map Prod.snd⟩

/-- The new name of a column of the joined table. -/
def renamed (p : JoinPlan) (left right : List String) (column : String) :
    Except Fault String :=
  if !left.contains column then .ok column
  else
    let q := Name.qualify p.label column
    if left.contains q || right.contains q then .error (.join (.ambiguous column q))
    else .ok q

/-- The columns of the joined table with their new names. -/
def renamedRight (p : JoinPlan) (left right : List String) :
    Except Fault (List (String × String)) :=
  right.mapM fun column => do return (column, ← p.renamed left right column)

/-- The new name of a column by a list of new names. -/
def newName (renames : List (String × String)) (column : String) : String :=
  (renames.lookup column).getD column

/-- The helper columns that hold the keys of the two tables. -/
def hiddenLeft (i : Nat) : String := s!"__fq_lk_{i}"

def hiddenRight (i : Nat) : String := s!"__fq_rk_{i}"

/-- The pairs of key columns, numbered. -/
def numberedKeys (p : JoinPlan) : List (Nat × String × String) :=
  (List.range p.leftOn.length).zip (p.leftOn.zip p.rightOn)

/-- The written form of a plan. -/
def text (p : JoinPlan) : String :=
  p.mode.text ++ " JOIN " ++ p.label ++ " ON " ++
    Operator.bracketed ((p.leftOn.zip p.rightOn).map fun (l, r) => l ++ "=" ++ r)

end JoinPlan

end TableQuery
