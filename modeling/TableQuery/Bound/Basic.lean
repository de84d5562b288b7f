import TableQuery.Expr.Basic
import TableQuery.Function.Basic

/-!
# Bound expressions

Binding an expression resolves its columns against those of a table and its calls against the
functions that are known. Aggregates have a meaning only where rows are grouped, and not inside one
another.
-/

namespace TableQuery

/-- Where an expression stands: it has a value per row, or a value per group of rows. -/
inductive Scope where
  | row
  | group
  deriving DecidableEq, Repr, Inhabited

/-- A fault unless an aggregate may stand here. -/
def Scope.admit (scope : Scope) (inAggregate : Bool) (name : String) : Except Fault Unit :=
  match scope, inAggregate with
  | .row, _ => .error (.expression (.aggregateOutsideGroup name))
  | .group, true => .error (.expression (.nestedAggregate name))
  | .group, false => .ok ()

inductive Bound where
  | const (value : Scalar)
  | column (name : String)
  | call (name : String) (function : ScalarFunction) (args : List Bound)
  | aggregate (function : Aggregate) (operand : Bound)
  | rowCount
  | neg (operand : Bound)
  | not (operand : Bound)
  | binary (op : BinaryOp) (left right : Bound)
  | isNull (operand : Bound) (negated : Bool)
  | inList (operand : Bound) (items : List Bound) (negated : Bool)
  deriving Inhabited

namespace Bound

section

variable (columns : List String) (functions : Functions) (scope : Scope)

mutual

/-- Bind an expression that stands inside an aggregate or outside. -/
def ofExpr (inAggregate : Bool) : Expr → Except Fault Bound
  | .literal x => .ok (.const x)
  | .column name => do return .column (← Name.resolve name columns)
  | .countStar => do
    scope.admit inAggregate "COUNT(*)"
    return .rowCount
  | .call name args =>
    match Aggregate.ofName? name with
    | some a => do
      scope.admit inAggregate name
      if args.length ≠ 1 then
        throw (.expression (.aggregateArgumentCount name args.length))
      match ← ofExprs true args with
      | [x] => return .aggregate a x
      | _ => throw (.expression (.aggregateArgumentCount name args.length))
    | none => do
      let f ← functions.resolve name args.length
      return .call name f (← ofExprs inAggregate args)
  | .neg e => do return .neg (← ofExpr inAggregate e)
  | .not e => do return .not (← ofExpr inAggregate e)
  | .binary op l r => do return .binary op (← ofExpr inAggregate l) (← ofExpr inAggregate r)
  | .isNull e negated => do return .isNull (← ofExpr inAggregate e) negated
  | .inList e items negated => do
    return .inList (← ofExpr inAggregate e) (← ofExprs inAggregate items) negated

def ofExprs (inAggregate : Bool) : List Expr → Except Fault (List Bound)
  | [] => .ok []
  | e :: es => do return (← ofExpr inAggregate e) :: (← ofExprs inAggregate es)

end

end

/-- Bind an expression to the columns of a table. -/
def bind (e : Expr) (columns : List String) (functions : Functions) (scope : Scope) :
    Except Fault Bound :=
  ofExpr columns functions scope false e

mutual

/-- A bound expression as shown to a reader. -/
def shown : Bound → String
  | .const x => "Const(" ++ x.shown ++ ")"
  | .column name => "Column(" ++ name ++ ")"
  | .call name _ args => name ++ "([" ++ ", ".intercalate (shownAll args) ++ "])"
  | .aggregate a x => a.shown ++ "(" ++ shown x ++ ")"
  | .rowCount => "CountRows"
  | .neg x => "Neg(" ++ shown x ++ ")"
  | .not x => "Not(" ++ shown x ++ ")"
  | .binary op l r => "(" ++ shown l ++ " " ++ op.symbol ++ " " ++ shown r ++ ")"
  | .isNull x negated => "IsNull(" ++ shown x ++ s!", negated={negated})"
  | .inList x items negated =>
    "InList(" ++ shown x ++ ", [" ++ ", ".intercalate (shownAll items) ++
      s!"], negated={negated})"

def shownAll : List Bound → List String
  | [] => []
  | x :: xs => shown x :: shownAll xs

end

mutual

/-- The columns a bound expression reads, repetitions included. -/
def reads : Bound → List String
  | .const _ => []
  | .column name => [name]
  | .call _ _ args => readsOfAll args
  | .aggregate _ x => reads x
  | .rowCount => []
  | .neg x => reads x
  | .not x => reads x
  | .binary _ l r => reads l ++ reads r
  | .isNull x _ => reads x
  | .inList x items _ => reads x ++ readsOfAll items

def readsOfAll : List Bound → List String
  | [] => []
  | x :: xs => reads x ++ readsOfAll xs

end

/-- The names of a list, each once, in the order in which they come first. -/
def firsts (names : List String) : List String :=
  (names.foldl (fun seen name => if seen.contains name then seen else name :: seen) []).reverse

/-- The columns a bound expression reads, each once. -/
def referenced (x : Bound) : List String :=
  firsts x.reads

end Bound

end TableQuery
