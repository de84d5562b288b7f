import TableQuery.Text.Case

/-!
# The aggregates

Functions that reduce the values of a group to one value. They are known by their names, in any
case of letters; the mean has two names.
-/

namespace TableQuery

inductive Aggregate where
  | sum
  | avg
  | min
  | max
  | count
  | first
  | last
  deriving DecidableEq, Repr, Inhabited

namespace Aggregate

/-- The aggregate that a function name denotes. -/
def ofName? (name : String) : Option Aggregate :=
  match Text.upper name with
  | "SUM" => some .sum
  | "AVG" => some .avg
  | "MEAN" => some .avg
  | "MIN" => some .min
  | "MAX" => some .max
  | "COUNT" => some .count
  | "FIRST" => some .first
  | "LAST" => some .last
  | _ => none

/-- The name shown for an aggregate. -/
def shown : Aggregate → String
  | .sum => "Sum"
  | .avg => "Avg"
  | .min => "Min"
  | .max => "Max"
  | .count => "Count"
  | .first => "First"
  | .last => "Last"

end Aggregate

end TableQuery
