/-!
# The equality sign in conditions

A condition may write equality with any number of equal signs. Outside string literals every run
of them becomes a pair, except after `!`, `<` or `>`, where the signs belong to the comparison.
-/

namespace TableQuery.Sql

/-- Where a reader of a condition stands. -/
inductive ConditionState where
  /-- Inside a string literal with this quote. -/
  | literal (quote : Char)
  /-- Outside; the flag tells whether the last character begins a comparison. -/
  | plain (comparing : Bool)
  /-- In a run of equal signs; the flag tells whether the run is kept as it is. -/
  | signs (kept : Bool)
  deriving DecidableEq, Repr

/-- The state after a character that is no equal sign, outside literals. -/
def ConditionState.after (c : Char) : ConditionState :=
  if c = '\'' ∨ c = '"' then .literal c else .plain (c = '!' || c = '<' || c = '>')

/-- The condition with its runs of equal signs made pairs, read from a given state on. -/
def pairSignsFrom : ConditionState → List Char → List Char
  | _, [] => []
  | .literal q, c :: cs => c :: pairSignsFrom (if c = q then .plain false else .literal q) cs
  | .plain comparing, c :: cs =>
    if c ≠ '=' then c :: pairSignsFrom (.after c) cs
    else if comparing then '=' :: pairSignsFrom (.signs true) cs
    else '=' :: '=' :: pairSignsFrom (.signs false) cs
  | .signs kept, c :: cs =>
    if c ≠ '=' then c :: pairSignsFrom (.after c) cs
    else if kept then '=' :: pairSignsFrom (.signs true) cs
    else pairSignsFrom (.signs false) cs

/-- A condition in which equality is written with two signs. -/
def pairSigns (condition : String) : String :=
  String.ofList (pairSignsFrom (.plain false) condition.toList)

end TableQuery.Sql
