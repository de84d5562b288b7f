/-!
# Grouping rows

Rows with the same key make a group. Groups come in the order of their first rows, and each lists
its rows in order.
-/

namespace TableQuery

variable {κ : Type}

/-- Add a row to the group of its key, or as a group of its own behind the others. -/
def addToGroup (same : κ → κ → Bool) (key : κ) (row : Nat) :
    List (κ × List Nat) → List (κ × List Nat)
  | [] => [(key, [row])]
  | (k, rows) :: rest =>
    if same k key then (k, rows ++ [row]) :: rest
    else (k, rows) :: addToGroup same key row rest

/-- The groups of the rows `0, …, n - 1`, each with the key of its first row. -/
def groupRows (same : κ → κ → Bool) (key : Nat → κ) (n : Nat) : List (κ × List Nat) :=
  (List.range n).foldl (fun groups row => addToGroup same (key row) row groups) []

end TableQuery
