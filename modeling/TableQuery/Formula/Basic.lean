import TableQuery.Aggregate.Name
import TableQuery.Datum
import TableQuery.Table.Basic

/-!
# Formulas

A formula says how a column is computed from the columns of a table. It is typed by the types of
those columns alone, so it can be checked before there are any rows.
-/

namespace TableQuery

inductive Formula where
  | const (value : Scalar)
  | column (name : String)
  /-- The number of rows. -/
  | rowCount
  | binary (op : BinaryOp) (left right : Formula)
  | not (operand : Formula)
  | isNull (operand : Formula) (negated : Bool)
  /-- Whether a cell is neither missing nor not-a-number. -/
  | present (operand : Formula)
  /-- What a cell says as a condition. -/
  | truth (operand : Formula)
  | choose (condition yes no : Formula)
  | aggregate (function : Aggregate) (operand : Formula)
  /-- One value for every row. -/
  | repeated (operand : Formula)
  /-- The size of a number, without its sign. -/
  | size (operand : Formula)
  deriving Inhabited

namespace Formula

/-- The first of several formulas whose cell is present. -/
def firstPresent : List Formula → Formula
  | [] => .const .null
  | f :: fs => .choose (.present f) f (firstPresent fs)

end Formula

end TableQuery
