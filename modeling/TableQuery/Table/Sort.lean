import TableQuery.Table.Basic

/-!
# Sorting rows

Rows are sorted by insertion: each row moves in front of those that come strictly after it, so rows
that compare equal keep their order. Missing keys come last in both directions.
-/

namespace TableQuery

/-- Put `x` into a list sorted from the last to the first element, in front of what comes strictly
after it. -/
def insertBack {α : Type} (order : α → α → Ordering) (x : α) : List α → List α
  | [] => [x]
  | y :: ys => if order x y == .lt then y :: insertBack order x ys else x :: y :: ys

/-- The list in order, equal elements in their given order. -/
def stableSort {α : Type} (order : α → α → Ordering) (xs : List α) : List α :=
  (xs.foldl (fun done x => insertBack order x done) []).reverse

/-- The order of two values in one direction; what is missing comes last in both. -/
def directed {α : Type} (isMissing : α → Bool) (order : α → α → Ordering) (descending : Bool)
    (x y : α) : Ordering :=
  if descending && !isMissing x && !isMissing y then order y x else order x y

/-- The order of two rows by several keys, the first that tells them apart. -/
def byKeys {α : Type} (orders : List (α → α → Ordering)) (x y : α) : Ordering :=
  orders.foldr (fun order rest => (order x y).then rest) .eq

namespace Cell

/-- The order of cells with missing ones last. -/
def orderMissingLast (a b : Cell) : Ordering :=
  match a.isNull, b.isNull with
  | true, true => .eq
  | true, false => .gt
  | false, true => .lt
  | false, false => order a b

end Cell

/-- The places of a list of `n` rows, sorted by keys that are given with their values in every row
and their direction. -/
def sortedRows {α : Type} [Inhabited α] (isMissing : α → Bool) (order : α → α → Ordering)
    (keys : List (Array α × Bool)) (n : Nat) : List Nat :=
  stableSort
    (byKeys <| keys.map fun (values, descending) (i j : Nat) =>
      directed isMissing order descending (values.getD i default) (values.getD j default))
    (List.range n)

end TableQuery
