import TableQuery.Fault
import TableQuery.Scalar.Order
import TableQuery.Truth

/-!
# Operators on scalars

Null in, null out, except for the truth tables of `AND` and `OR`, where a known operand can decide.
Sums, differences and products of integers are exact, and become doubles where 64 bits do not
suffice. A quotient is always a double. The remainder has the sign of the divisor.
-/

namespace TableQuery.Scalar

/-- An integer, or the double in its place when 64 bits do not suffice. -/
def exactOr (i : Int) (rounded : Float) : Scalar :=
  match Number.toInt64? i with
  | some x => .int x
  | none => .float rounded

/-- Arithmetic on two integers. Operators that are not arithmetic give null. -/
def arithmeticInt (op : BinaryOp) (a b : Int64) : Scalar :=
  let x := Number.toFloat a
  let y := Number.toFloat b
  match op with
  | .add => exactOr (a.toInt + b.toInt) (x + y)
  | .sub => exactOr (a.toInt - b.toInt) (x - y)
  | .mul => exactOr (a.toInt * b.toInt) (x * y)
  | .div => .float (x / y)
  | .mod => if b = 0 then .null else .int (Number.flooredRem a b)
  | _ => .null

/-- Arithmetic on two doubles. Operators that are not arithmetic give null. -/
def arithmeticFloat (op : BinaryOp) (x y : Float) : Scalar :=
  match op with
  | .add => .float (x + y)
  | .sub => .float (x - y)
  | .mul => .float (x * y)
  | .div => .float (x / y)
  | .mod => .float (Number.flooredRemainder x y)
  | _ => .null

/-- An arithmetic operator on two values; texts can only be joined. -/
def arithmetic (op : BinaryOp) (a b : Scalar) : Except Fault Scalar :=
  match a, b with
  | .null, _ => .ok .null
  | _, .null => .ok .null
  | .int x, .int y => .ok (arithmeticInt op x y)
  | a, b =>
    match op, a, b with
    | .add, .str x, .str y => .ok (.str (x ++ y))
    | op, a, b =>
      match a.toFloat?, b.toFloat? with
      | some x, some y => .ok (arithmeticFloat op x y)
      | _, _ => .error (.expression (.operands op a.kind b.kind))

/-- A comparison of two values. -/
def comparison (op : BinaryOp) (a b : Scalar) : Except Fault Scalar :=
  match a, b with
  | .null, _ => .ok .null
  | _, .null => .ok .null
  | a, b =>
    match compare? a b with
    | some o => .ok (.bool (op.accepts o))
    | none => .error (.expression (.incomparable a.kind b.kind))

/-- A binary operator on two values. -/
def binary (op : BinaryOp) (a b : Scalar) : Except Fault Scalar :=
  match op with
  | .and => .ok (ofTruth (Truth.both a.truth? b.truth?))
  | .or => .ok (ofTruth (Truth.either a.truth? b.truth?))
  | op => if op.isComparison then comparison op a b else arithmetic op a b

/-- The negative of a number. -/
def negate : Scalar → Except Fault Scalar
  | .null => .ok .null
  | .int i => .ok (exactOr (-i.toInt) (-Number.toFloat i))
  | .float x => .ok (.float (-x))
  | x => .error (.expression (.negated x))

/-- The opposite truth value. -/
def complement (x : Scalar) : Scalar :=
  ofTruth (x.truth?.map not)

end TableQuery.Scalar
