import TableQuery.Aggregate.Name
import TableQuery.Scalar.Basic

/-!
# Scalar expressions

The expressions of a query: literals, columns as written, function calls, `COUNT(*)`, and the
operators. Equality of expressions compares literals as scalars are compared.
-/

namespace TableQuery

inductive BinaryOp where
  | add
  | sub
  | mul
  | div
  | mod
  | eq
  | ne
  | lt
  | le
  | gt
  | ge
  | and
  | or
  deriving DecidableEq, Repr, Inhabited

namespace BinaryOp

/-- The sign of an operator. -/
def symbol : BinaryOp → String
  | .add => "+"
  | .sub => "-"
  | .mul => "*"
  | .div => "/"
  | .mod => "%"
  | .eq => "=="
  | .ne => "!="
  | .lt => "<"
  | .le => "<="
  | .gt => ">"
  | .ge => ">="
  | .and => "AND"
  | .or => "OR"

/-- Every operator, arithmetic first. -/
def all : List BinaryOp :=
  [.add, .sub, .mul, .div, .mod, .eq, .ne, .lt, .le, .gt, .ge, .and, .or]

/-- Whether an operator compares its operands. -/
def isComparison : BinaryOp → Bool
  | .eq | .ne | .lt | .le | .gt | .ge => true
  | _ => false

/-- Whether operands in the given order satisfy a comparison. -/
def accepts (op : BinaryOp) (o : Ordering) : Bool :=
  match op with
  | .eq => o == .eq
  | .ne => o != .eq
  | .lt => o == .lt
  | .le => o != .gt
  | .gt => o == .gt
  | .ge => o != .lt
  | _ => false

end BinaryOp

inductive Expr where
  | literal (value : Scalar)
  | column (name : String)
  /-- A function call; the name is in capitals. -/
  | call (name : String) (args : List Expr)
  | countStar
  | neg (operand : Expr)
  | not (operand : Expr)
  | binary (op : BinaryOp) (left right : Expr)
  | isNull (operand : Expr) (negated : Bool)
  | inList (operand : Expr) (items : List Expr) (negated : Bool)
  deriving Inhabited

namespace Expr

mutual

/-- Equality of expressions. -/
def same : Expr → Expr → Bool
  | .literal a, .literal b => a.same b
  | .column a, .column b => a == b
  | .call f xs, .call g ys => f == g && sameAll xs ys
  | .countStar, .countStar => true
  | .neg a, .neg b => same a b
  | .not a, .not b => same a b
  | .binary o a b, .binary p c d => decide (o = p) && same a c && same b d
  | .isNull a m, .isNull b n => m == n && same a b
  | .inList a xs m, .inList b ys n => m == n && same a b && sameAll xs ys
  | _, _ => false

def sameAll : List Expr → List Expr → Bool
  | [], [] => true
  | x :: xs, y :: ys => same x y && sameAll xs ys
  | _, _ => false

end

instance : BEq Expr := ⟨same⟩

/-- The column of an expression that is nothing but a column. -/
def asColumn? : Expr → Option String
  | .column name => some name
  | _ => none

/-- Whether an expression is a literal. -/
def isLiteral : Expr → Bool
  | .literal _ => true
  | _ => false

mutual

/-- Whether an aggregate occurs anywhere in an expression. -/
def containsAggregate : Expr → Bool
  | .countStar => true
  | .call name args => (Aggregate.ofName? name).isSome || anyAggregate args
  | .literal _ => false
  | .column _ => false
  | .neg e => containsAggregate e
  | .not e => containsAggregate e
  | .isNull e _ => containsAggregate e
  | .binary _ l r => containsAggregate l || containsAggregate r
  | .inList e items _ => containsAggregate e || anyAggregate items

def anyAggregate : List Expr → Bool
  | [] => false
  | e :: es => containsAggregate e || anyAggregate es

end

mutual

/-- The columns an expression mentions, from left to right, repetitions included. -/
def columns : Expr → List String
  | .column name => [name]
  | .literal _ => []
  | .countStar => []
  | .call _ args => columnsOfAll args
  | .neg e => columns e
  | .not e => columns e
  | .isNull e _ => columns e
  | .binary _ l r => columns l ++ columns r
  | .inList e items _ => columns e ++ columnsOfAll items

def columnsOfAll : List Expr → List String
  | [] => []
  | e :: es => columns e ++ columnsOfAll es

end

end Expr

end TableQuery
