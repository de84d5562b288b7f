import TableQuery.Expr.Basic

/-!
# Written form of expressions

Binary operators stand in parentheses with blanks around their sign; a quote in a string is written
twice.
-/

namespace TableQuery

namespace Expr

mutual

/-- The written form of an expression. -/
def text : Expr → String
  | .literal l => l.written
  | .column name => name
  | .countStar => "COUNT(*)"
  | .call name args => name ++ "(" ++ ", ".intercalate (texts args) ++ ")"
  | .neg e => "-" ++ text e
  | .not e => "NOT " ++ text e
  | .binary op l r => "(" ++ text l ++ " " ++ op.symbol ++ " " ++ text r ++ ")"
  | .isNull e negated => text e ++ " IS " ++ (if negated then "NOT " else "") ++ "NULL"
  | .inList e items negated =>
    text e ++ " " ++ (if negated then "NOT " else "") ++ "IN (" ++
      ", ".intercalate (texts items) ++ ")"

def texts : List Expr → List String
  | [] => []
  | e :: es => text e :: texts es

end

end Expr

end TableQuery
