import TableQuery.Aggregate.Name
import TableQuery.Scalar.Arithmetic

/-!
# Reducing the values of a group

`COUNT` counts the values that are not null, `FIRST` and `LAST` take what stands at the ends, null
or not, and the other aggregates pass over nulls. A sum of integers wraps around; once a double is
among the values, the doubles and the integers are summed apart and then added.
-/

namespace TableQuery.Aggregate

/-- The integers and the doubles of a sum so far; no double has been met if there is none. -/
structure RunningSum where
  whole : Int64
  part : Option Float

/-- The sum with one more value. -/
def RunningSum.add (s : RunningSum) : Scalar → Except Fault RunningSum
  | .null => .ok s
  | .int i => .ok ⟨s.whole + i, s.part⟩
  | .bool b => .ok ⟨s.whole + if b then 1 else 0, s.part⟩
  | .float x => .ok ⟨s.whole, some (s.part.getD 0.0 + x)⟩
  | x => .error (.execution (.sumOf x))

def RunningSum.total (s : RunningSum) : Scalar :=
  match s.part with
  | none => .int s.whole
  | some x => .float (x + Number.toFloat s.whole)

/-- The sum of values. -/
def sumOf (xs : List Scalar) : Except Fault Scalar := do
  return (← xs.foldlM RunningSum.add ⟨0, none⟩).total

/-- The mean of values, null without any. -/
def meanOf (xs : List Scalar) : Except Fault Scalar := do
  let numbers ← (xs.filter (!·.isNull)).mapM fun x =>
    match x.toFloat? with
    | some y => Except.ok y
    | none => .error (.execution (.meanOf x))
  if numbers.isEmpty then return .null
  return .float (numbers.foldl (· + ·) 0.0 / Float.ofNat numbers.length)

/-- The first value such that none behind it lies further in the given direction. -/
def extremeOf (direction : Ordering) (xs : List Scalar) : Except Fault Scalar :=
  xs.foldlM (fun best x =>
    if x.isNull then .ok best
    else if best.isNull then .ok x
    else
      match Scalar.compare? x best with
      | some o => .ok (if o == direction then x else best)
      | none => .error (.execution (.unordered x best))) .null

/-- The value an aggregate gives for the values of a group. -/
def reduce (a : Aggregate) (xs : List Scalar) : Except Fault Scalar :=
  match a with
  | .count => .ok (.int (.ofNat (xs.filter (!·.isNull)).length))
  | .first => .ok (xs.head?.getD .null)
  | .last => .ok (xs.getLast?.getD .null)
  | .sum => sumOf xs
  | .avg => meanOf xs
  | .min => extremeOf .lt xs
  | .max => extremeOf .gt xs

end TableQuery.Aggregate
