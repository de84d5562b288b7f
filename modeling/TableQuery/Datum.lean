import TableQuery.Scalar.Arithmetic

/-!
# One value or many

Inside a group an expression stands either for one value or for one value per row. A single value
goes with any number of others; two columns of values go together only if they are equally long.
-/

namespace TableQuery

inductive Datum (α : Type) where
  | one (value : α)
  | many (values : List α)
  deriving Repr, Inhabited

namespace Datum

variable {α β γ : Type}

/-- The number of values, if there can be more than one. -/
def length? : Datum α → Option Nat
  | .one _ => none
  | .many xs => some xs.length

/-- The value at a place; a single value stands at every place. -/
def get? (d : Datum α) (i : Nat) : Option α :=
  match d with
  | .one x => some x
  | .many xs => xs[i]?

/-- The value at a place, null behind the last. -/
def scalarAt (d : Datum Scalar) (i : Nat) : Scalar :=
  (d.get? i).getD .null

/-- The only value. -/
def single (d : Datum α) : Except Fault α :=
  match d with
  | .one x => .ok x
  | .many _ => .error (.expression .manyValues)

/-- All values; a single value as often as asked for. -/
def toList (n : Nat) : Datum α → List α
  | .one x => List.replicate n x
  | .many xs => xs

/-- Apply a function to every value. -/
def map (f : α → β) : Datum α → Datum β
  | .one x => .one (f x)
  | .many xs => .many (xs.map f)

/-- Apply a function that may fail to every value. -/
def mapM (f : α → Except Fault β) : Datum α → Except Fault (Datum β)
  | .one x => return .one (← f x)
  | .many xs => return .many (← xs.mapM f)

/-- The length that several data have in common, going on from a length known so far. -/
def commonLengthFrom (known : Option Nat) : List (Datum α) → Except Fault (Option Nat)
  | [] => .ok known
  | d :: ds =>
    match known, d.length? with
    | known, none => commonLengthFrom known ds
    | none, some n => commonLengthFrom (some n) ds
    | some m, some n =>
      if m = n then commonLengthFrom (some n) ds else .error (.execution (.lengths m n))

/-- The length that several data have in common; none if each is a single value. -/
def commonLength (ds : List (Datum α)) : Except Fault (Option Nat) :=
  commonLengthFrom none ds

/-- Apply a function to the values of two data side by side. -/
def zipM (f : α → β → Except Fault γ) (a : Datum α) (b : Datum β) : Except Fault (Datum γ) :=
  match a, b with
  | .one x, .one y => return .one (← f x y)
  | .one x, .many ys => return .many (← ys.mapM fun y => f x y)
  | .many xs, .one y => return .many (← xs.mapM fun x => f x y)
  | .many xs, .many ys =>
    if xs.length = ys.length then return .many (← (xs.zip ys).mapM fun (x, y) => f x y)
    else .error (.execution (.lengths xs.length ys.length))

end Datum

end TableQuery
