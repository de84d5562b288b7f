import TableQuery.Sql.Expression

/-!
# Operators

A query is carried out as a sequence of operators. Each has a written form, by which faults refer to
it. Items keep the text they were written as; without an alias the text also names the result.
-/

namespace TableQuery

/-- A table and the name under which the query speaks of it. -/
structure TableRef where
  source : String
  label : String
  deriving DecidableEq, Repr, Inhabited

namespace TableRef

/-- Whether the query gives the table another name. -/
def isAliased (t : TableRef) : Bool :=
  t.label != t.source

def text (t : TableRef) : String :=
  if t.isAliased then t.source ++ " AS " ++ t.label else t.source

end TableRef

/-- An expression as written and the name of its result. -/
structure Item where
  expr : Expr
  text : String
  label : String
  deriving BEq, Inhabited

namespace Item

/-- An item whose name is its text unless an alias is given. -/
def named (expr : Expr) (text : String) (label? : Option String) : Item :=
  ⟨expr, text, label?.getD text⟩

/-- The item that a text spells. -/
def parse (text : String) (label? : Option String) : Except Sql.SyntaxError Item := do
  return named (← Expr.parse text) (Text.trim text) label?

/-- The text, and the alias if it is another. -/
def written (i : Item) : String :=
  if i.label = i.text then i.text else i.text ++ " AS " ++ i.label

end Item

inductive JoinMode where
  | left
  | right
  | inner
  deriving DecidableEq, Repr, Inhabited

def JoinMode.text : JoinMode → String
  | .left => "LEFT"
  | .right => "RIGHT"
  | .inner => "INNER"

/-- Two columns that a join compares, in the order written. -/
structure JoinKey where
  first : String
  second : String
  deriving DecidableEq, Repr, Inhabited

structure OrderItem where
  item : Item
  ascending : Bool
  deriving BEq, Inhabited

inductive Operator where
  | load (table : TableRef)
  | join (table : TableRef) (mode : JoinMode) (on : List JoinKey)
  /-- Select items of a table, or aggregate the groups of a grouped one. -/
  | project (items : List Item)
  /-- Keep the rows for which a condition holds; it may write equality with one sign. -/
  | filter (condition : String)
  | group (keys : List Item) (projection : List Item)
  | order (items : List OrderItem)
  | limit (offset count : UInt64)
  deriving BEq, Inhabited

namespace Operator

/-- The name of the kind of an operator. -/
def kind : Operator → String
  | .load _ => "LOAD"
  | .join .. => "JOIN"
  | .project _ => "PROJECT"
  | .filter _ => "FILTER"
  | .group .. => "GROUP"
  | .order _ => "ORDER"
  | .limit .. => "LIMIT"

/-- Texts in brackets. -/
def bracketed (texts : List String) : String :=
  "[" ++ ", ".intercalate texts ++ "]"

/-- The written form of an operator. -/
def text : Operator → String
  | .load table => "LOAD " ++ table.text
  | .join table mode on =>
    mode.text ++ " JOIN " ++ table.text ++ " ON " ++
      " AND ".intercalate (on.map fun k => k.first ++ " = " ++ k.second)
  | .project items => "PROJECT " ++ bracketed (items.map Item.written)
  | .filter condition => "FILTER " ++ condition
  | .group keys _ => "GROUP " ++ bracketed (keys.map Item.written)
  | .order items =>
    "ORDER " ++ bracketed (items.map fun i =>
      i.item.text ++ if i.ascending then " ASC" else " DESC")
  | .limit offset count =>
    "LIMIT " ++ toString offset.toNat ++ ", " ++ toString count.toNat

end Operator

end TableQuery
