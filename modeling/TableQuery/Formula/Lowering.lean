import TableQuery.Bound.Basic
import TableQuery.Formula.Typing

/-!
# From expressions to formulas

An expression over the columns of a table becomes a formula over them. A minus sign becomes a
difference from zero, membership a disjunction of comparisons, and a constant inside an aggregate
stands once for every row.
-/

namespace TableQuery.Formula

/-- The disjunction of comparisons of one formula with several. -/
def anyEqual (target : Formula) : List Formula → Formula
  | [] => .const (.bool false)
  | item :: items =>
    items.foldl (fun hits item => .binary .or hits (.binary .eq target item))
      (.binary .eq target item)

section

variable (columns : List String) (functions : Functions) (scope : Scope)

mutual

/-- The formula of an expression that stands inside an aggregate or outside. -/
def ofExpr (inAggregate : Bool) : Expr → Except Fault Formula
  | .literal x => .ok (.const x)
  | .column name => do return .column (← Name.resolve name columns)
  | .countStar => do
    scope.admit inAggregate "COUNT(*)"
    return .rowCount
  | .call name args =>
    match Aggregate.ofName? name with
    | some a => do
      scope.admit inAggregate name
      if args.length ≠ 1 then
        throw (.expression (.aggregateArgumentCount name args.length))
      match ← ofExprs true args with
      | [f] =>
        let constant := (Expr.columnsOfAll args).isEmpty
        return .aggregate a (if constant then .repeated f else f)
      | _ => throw (.expression (.aggregateArgumentCount name args.length))
    | none => do
      let f ← functions.resolve name args.length
      (f.formula (← ofExprs inAggregate args)).mapError .expression
  | .neg e => do return .binary .sub (.const (.int 0)) (← ofExpr inAggregate e)
  | .not e => do return .not (← ofExpr inAggregate e)
  | .binary op l r => do return .binary op (← ofExpr inAggregate l) (← ofExpr inAggregate r)
  | .isNull e negated => do return .isNull (← ofExpr inAggregate e) negated
  | .inList e items negated => do
    let target ← ofExpr inAggregate e
    let hits := anyEqual target (← ofExprs inAggregate items)
    return if negated then .not hits else hits

def ofExprs (inAggregate : Bool) : List Expr → Except Fault (List Formula)
  | [] => .ok []
  | e :: es => do return (← ofExpr inAggregate e) :: (← ofExprs inAggregate es)

end

end

/-- The formula of an expression over the columns of a table. -/
def lower (e : Expr) (columns : List String) (functions : Functions) (scope : Scope) :
    Except Fault Formula :=
  ofExpr columns functions scope false e

/-- The type of an expression over columns of the given types. -/
def typeOfExpr (e : Expr) (s : Schema) (functions : Functions) (scope : Scope) :
    Except Fault ColumnType := do
  typeOver s (← lower e (s.map Prod.fst) functions scope)

/-- A formula as a condition, if its type has truth values. -/
def condition (f : Formula) (s : Schema) : Except Fault Formula := do
  let type ← typeOver s f
  if type.hasTruth then return .truth f
  else throw (.expression (.noTruth type.name))

end TableQuery.Formula
