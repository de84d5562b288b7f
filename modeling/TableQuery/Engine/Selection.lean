import TableQuery.Fault

/-!
# Selected columns

The columns that an operator gives: columns that are there already, or expressions to compute.
-/

namespace TableQuery

/-- A column of a selection: a column of the table, or a computed one. -/
inductive Selected where
  | column (source label : String)
  | computed (expr : Expr) (label : String)
  deriving Inhabited

/-- The name that a selected column gets. -/
def Selected.label : Selected → String
  | .column _ a => a
  | .computed _ a => a

/-- A column of a grouped selection: a key, or what aggregates the groups. -/
inductive Reduced where
  | key (column label : String)
  | aggregate (expr : Expr) (label : String)
  deriving Inhabited

/-- The name that a column of a grouped selection gets. -/
def Reduced.label : Reduced → String
  | .key _ a => a
  | .aggregate _ a => a

/-- A fault unless the names of the results are pairwise different. -/
def distinctOutputs : List String → Except Fault Unit
  | names => go [] names
where
  go (seen : List String) : List String → Except Fault Unit
    | [] => .ok ()
    | name :: rest =>
      if seen.contains name then .error (.execution (.duplicateOutput name))
      else go (name :: seen) rest

end TableQuery
