import TableQuery.Expr.Text
import TableQuery.Sql.Keyword

/-!
# Faults in query texts

Every way in which a text can fail to be an expression or a query, with the wording of each.
Positions count bytes.
-/

namespace TableQuery.Sql

/-- What a query should have gone on with. -/
inductive Wanted where
  | keyword (word : Keyword)
  | expression
  | closing
  | listAfterIn
  | moreInList
  | closingAfterStar
  | moreArguments
  | aliasAfterAs
  | tableName
  | count
  | endOfQuery
  deriving DecidableEq, Repr

def Wanted.text : Wanted → String
  | .keyword k => "keyword " ++ k.word
  | .expression => "expression"
  | .closing => "')'"
  | .listAfterIn => "'(' after IN"
  | .moreInList => "',' or ')' in IN list"
  | .closingAfterStar => "')' after '*'"
  | .moreArguments => "',' or ')' in argument list"
  | .aliasAfterAs => "alias after AS"
  | .tableName => "table name"
  | .count => "non-negative integer"
  | .endOfQuery => "end of query"

/-- The rest of a text from a position on. -/
structure Remainder where
  text : String
  offset : Nat
  deriving DecidableEq, Repr

inductive SyntaxError where
  | emptyQuery
  | loneExclamation (offset : Nat)
  | unterminatedString (offset : Nat)
  | unterminatedName (offset : Nat)
  | strayCharacter (character : Char) (offset : Nat)
  /-- Something else was wanted at the given place, or at the end of the text. -/
  | expected (wanted : Wanted) (place : Option Remainder)
  | trailingInput (text : String)
  | subquery
  | distinctArgument (function : String)
  | starArgument (function : String)
  | joinMode
  | joinOperands (left right : Expr)
  | joinCondition (condition : Expr)
  | limitTooLarge (digits : String)
  | selectDistinct
  | starAmongItems
  | starWithGroup
  | having
  | union
  deriving Inhabited

namespace SyntaxError

/-- The wording of a fault. -/
def message : SyntaxError → String
  | .emptyQuery => "empty query"
  | .loneExclamation n => s!"unexpected '!' at offset {n}"
  | .unterminatedString n => s!"unterminated string literal at offset {n}"
  | .unterminatedName n => s!"unterminated quoted identifier at offset {n}"
  | .strayCharacter c n => "unexpected character '" ++ c.toString ++ s!"' at offset {n}"
  | .expected w (some r) => s!"expected {w.text} near '{r.text}' (offset {r.offset})"
  | .expected w none => s!"expected {w.text} at end of input"
  | .trailingInput t => s!"unexpected trailing input in expression '{t}'"
  | .subquery => "subqueries are not supported"
  | .distinctArgument f => s!"{f}(DISTINCT ...) is not supported"
  | .starArgument f => s!"'*' argument is only valid for COUNT, not {f}"
  | .joinMode => "only LEFT, RIGHT and INNER joins are supported"
  | .joinOperands l r => s!"join condition must compare two columns, got {l.text} = {r.text}"
  | .joinCondition e =>
    s!"join condition must be column equalities joined by AND, got {e.text}"
  | .limitTooLarge n => s!"invalid LIMIT value {n}"
  | .selectDistinct => "SELECT DISTINCT is not supported"
  | .starAmongItems => "'*' cannot be combined with other select items"
  | .starWithGroup => "'*' cannot be used with GROUP BY"
  | .having => "HAVING is not supported"
  | .union => "UNION is not supported"

end SyntaxError

end TableQuery.Sql
