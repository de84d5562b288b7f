import TableQuery.Formula.Cells
import TableQuery.Formula.Typing

/-!
# Evaluating formulas

The value of a formula over a table is a type with cells of that type. Where the rows are grouped an
aggregate gives a cell for each group, and otherwise one for the whole table. Operands that are
promised in different types are first brought to the type in which the promises meet, and what they
are computed in meets there; so the type of a value may be wider than the one promised.
-/

namespace TableQuery

/-- Cells of one type. -/
structure Values where
  type : ColumnType
  cells : Spread Cell
  deriving Inhabited

namespace Values

/-- The cells in another type. -/
def cast (target : ColumnType) (v : Values) : Values :=
  ⟨target, v.cells.map (Cell.cast v.type target)⟩

/-- Values promised in one type, where another one is wanted. -/
def bring (promised wanted : ColumnType) (v : Values) : Values :=
  if promised = wanted then v else v.cast wanted

/-- The cells as a column of `n` rows. -/
def toColumn (name : String) (n : Nat) (v : Values) : Column :=
  ⟨name, v.type, v.cells.toList n⟩

/-- A binary operator on values; `known` says that both are known without a table. -/
def binary (op : BinaryOp) (known : Bool) (a b : Values) : Except Fault Values := do
  let (meeting, result) ← ColumnType.operands op a.type b.type
  let pairs ← (a.cast meeting).cells.pair (b.cast meeting).cells
  let fixed := if known then .both else Fixed.ofOperands a.cells b.cells
  return ⟨result, pairs.map fun (x, y) => Cell.binary meeting op fixed x y⟩

/-- The choice between values by a condition; an unknown condition takes the second. -/
def choose (condition yes no : Values) : Except Fault Values := do
  let t ← ColumnType.chosen yes.type no.type
  let branches ← (yes.cast t).cells.pair (no.cast t).cells
  let cases ← condition.cells.pair branches
  return ⟨t, cases.map fun (c, y, n) => if c.truth? == some true then y else n⟩

/-- The aggregate of values, over all rows or over each group. A whole column of dates has no sum,
and neither has one that holds nothing but missing cells by its type. -/
def aggregate (a : Aggregate) (groups : Option (List (List Nat))) (v : Values) :
    Except Fault Values := do
  let result ← ColumnType.reduced a v.type
  match groups, v.cells with
  | none, cells =>
    if a = .sum ∧ (v.type = .null ∨ v.type = .date) then throw (.columns (.unsupported v.type.name))
    return ⟨result, .constant (Cell.reduce a v.type false cells.parts)⟩
  | some gs, .constant c =>
    return ⟨result, .perGroup (gs.map fun _ => Cell.reduce a v.type true [c])⟩
  | some gs, .perRow cs =>
    let rows := cs.toArray
    let values (group : List Nat) : List Cell := group.map fun row => rows.getD row .null
    return ⟨result, .perGroup (gs.map fun group => Cell.reduce a v.type true (values group))⟩
  | some _, .perGroup cs =>
    return ⟨result, .perGroup (cs.map fun c => Cell.reduce a v.type true [c])⟩

/-- The number of rows, of the table or of each group. -/
def counts (height : Nat) (groups : Option (List (List Nat))) : Values :=
  ⟨.int64, match groups with
    | none => .constant (.int height)
    | some gs => .perGroup (gs.map fun group => .int group.length)⟩

end Values

namespace Formula

/-- Whether a formula is built from literals by operators, so that its value is known without a
table. -/
def isKnown : Formula → Bool
  | .const _ => true
  | .binary _ l r => isKnown l && isKnown r
  | _ => false

/-- The value of a formula over a table whose columns are promised in the types of a schema, and
whose rows may be grouped. An operand may have a wider type than the one promised; it is brought
along only where the promise is not the meeting type already. Of a choice both branches are made,
and before the condition. One value for every row of a group counts as often as there are rows, even
if it is missing. -/
def eval (s : Schema) (t : Table) (groups : Option (List (List Nat))) :
    Formula → Except Fault Values
  | .const x => .ok ⟨(Cell.ofScalar x).1, .constant (Cell.ofScalar x).2⟩
  | .column name => do
    let c ← t.column name
    return ⟨c.type, .perRow c.cells⟩
  | .rowCount => .ok (Values.counts t.height groups)
  | .binary op l r => do
    let (a, b) := (← typeOver s l, ← typeOver s r)
    let (meeting, _) ← ColumnType.operands op a b
    let x ← eval s t groups l
    let y ← eval s t groups r
    Values.binary op (l.isKnown && r.isKnown) (x.bring a meeting) (y.bring b meeting)
  | .not f => do
    let v ← eval s t groups f
    return ⟨← v.type.complemented, v.cells.map (Cell.complement v.type)⟩
  | .isNull f negated => do
    let v ← eval s t groups f
    return ⟨.bool, v.cells.map fun c => .bool (c.isNull != negated)⟩
  | .present f => do
    let v ← eval s t groups f
    return ⟨.bool, v.cells.map fun c => .bool c.isPresent⟩
  | .truth f => do
    let v ← eval s t groups f
    return ⟨.bool, v.cells.map fun c => Cell.ofTruth c.truth?⟩
  | .choose c y n => do
    let (a, b) := (← typeOver s y, ← typeOver s n)
    let meeting ← ColumnType.chosen a b
    let yes ← eval s t groups y
    let no ← eval s t groups n
    Values.choose (← eval s t groups c) (yes.bring a meeting) (no.bring b meeting)
  | .aggregate a f => do
    let v ← eval s t groups f
    match a, f, groups with
    | .count, .repeated _, some _ => return Values.counts t.height groups
    | _, _, _ => v.aggregate a groups
  | .repeated f => do
    let v ← eval s t groups f
    return ⟨v.type, .perRow (v.cells.toList t.height)⟩
  | .size f => do
    let v ← eval s t groups f
    return ⟨← v.type.sized, v.cells.map (Cell.size v.type)⟩

end Formula

end TableQuery
