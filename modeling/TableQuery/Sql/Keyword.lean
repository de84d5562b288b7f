import TableQuery.Text.Case

/-!
# Key words

The words that have a meaning in a query. They cannot stand as a bare alias or as a column, and
they are recognised in any case of letters.
-/

namespace TableQuery.Sql

inductive Keyword where
  | select
  | «from»
  | «where»
  | group
  | order
  | «by»
  | limit
  | offset
  | as
  | on
  | join
  | left
  | right
  | inner
  | outer
  | full
  | cross
  | and
  | or
  | not
  | «in»
  | is
  | null
  | asc
  | desc
  | having
  | union
  | distinct
  | true
  | false
  deriving DecidableEq, Repr, Inhabited

namespace Keyword

/-- The word itself, in capitals. -/
def word : Keyword → String
  | .select => "SELECT"
  | .from => "FROM"
  | .where => "WHERE"
  | .group => "GROUP"
  | .order => "ORDER"
  | .by => "BY"
  | .limit => "LIMIT"
  | .offset => "OFFSET"
  | .as => "AS"
  | .on => "ON"
  | .join => "JOIN"
  | .left => "LEFT"
  | .right => "RIGHT"
  | .inner => "INNER"
  | .outer => "OUTER"
  | .full => "FULL"
  | .cross => "CROSS"
  | .and => "AND"
  | .or => "OR"
  | .not => "NOT"
  | .in => "IN"
  | .is => "IS"
  | .null => "NULL"
  | .asc => "ASC"
  | .desc => "DESC"
  | .having => "HAVING"
  | .union => "UNION"
  | .distinct => "DISTINCT"
  | .true => "TRUE"
  | .false => "FALSE"

/-- Every key word. -/
def all : List Keyword :=
  [.select, .from, .where, .group, .order, .by, .limit, .offset, .as, .on, .join, .left, .right,
    .inner, .outer, .full, .cross, .and, .or, .not, .in, .is, .null, .asc, .desc, .having, .union,
    .distinct, .true, .false]

/-- The key word that a name spells. -/
def ofName? (name : String) : Option Keyword :=
  all.find? fun k => k.word == Text.upper name

/-- Whether a name spells a key word. -/
def isReserved (name : String) : Bool :=
  (ofName? name).isSome

/-- A name spells a key word exactly if its capitals are the word. -/
theorem ofName?_eq_some_iff {name : String} {k : Keyword} :
    ofName? name = some k ↔ k.word = Text.upper name := by
  constructor
  · intro h
    simpa using List.find?_some h
  · intro h
    unfold ofName?
    rw [← h]
    cases k <;> decide

end Keyword

end TableQuery.Sql
