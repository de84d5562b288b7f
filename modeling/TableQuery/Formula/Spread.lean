import TableQuery.Fault

/-!
# Values over rows and groups

A value over a table is the same for all rows, or has one part per row, or one per group of rows. A
value that is the same everywhere goes with any other; parts per row and parts per group do not go
together.
-/

namespace TableQuery

inductive Spread (α : Type) where
  | constant (value : α)
  | perRow (values : List α)
  | perGroup (values : List α)
  deriving Repr, Inhabited

namespace Spread

variable {α β : Type}

/-- Apply a function to every part. -/
def map (f : α → β) : Spread α → Spread β
  | .constant x => .constant (f x)
  | .perRow xs => .perRow (xs.map f)
  | .perGroup xs => .perGroup (xs.map f)

/-- Whether a value is the same everywhere. -/
def isConstant : Spread α → Bool
  | .constant _ => true
  | _ => false

/-- All parts. -/
def parts : Spread α → List α
  | .constant x => [x]
  | .perRow xs => xs
  | .perGroup xs => xs

/-- The parts of `n` rows or groups. -/
def toList (n : Nat) : Spread α → List α
  | .constant x => List.replicate n x
  | .perRow xs => xs
  | .perGroup xs => xs

/-- The parts of two values side by side. -/
def pair : Spread α → Spread β → Except Fault (Spread (α × β))
  | .constant x, .constant y => .ok (.constant (x, y))
  | .constant x, .perRow ys => .ok (.perRow (ys.map fun y => (x, y)))
  | .constant x, .perGroup ys => .ok (.perGroup (ys.map fun y => (x, y)))
  | .perRow xs, .constant y => .ok (.perRow (xs.map fun x => (x, y)))
  | .perGroup xs, .constant y => .ok (.perGroup (xs.map fun x => (x, y)))
  | .perRow xs, .perRow ys => .ok (.perRow (xs.zip ys))
  | .perGroup xs, .perGroup ys => .ok (.perGroup (xs.zip ys))
  | _, _ => .error (.columns (.unsupported "list"))

end Spread

/-- Which of two operands is a single number beside a column of them. -/
inductive Fixed where
  | neither
  | left
  | right
  /-- Both operands are known without a table. -/
  | both
  deriving DecidableEq, Repr, Inhabited

/-- The operand that is constant beside parts of another; beside a single part none is. -/
def Fixed.ofOperands {α β : Type} (a : Spread α) (b : Spread β) : Fixed :=
  match a.isConstant, b.isConstant with
  | true, false => if b.parts.length = 1 then .neither else .left
  | false, true => if a.parts.length = 1 then .neither else .right
  | _, _ => .neither

end TableQuery
