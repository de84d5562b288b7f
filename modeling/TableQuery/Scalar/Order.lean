import TableQuery.Scalar.Basic

/-!
# Comparison and identity of scalars

Two comparisons are in use. Conditions compare texts with texts and numbers, truth values included,
with numbers; the rest cannot be compared. Sorting needs an answer always, so it falls back on the
kinds, and it puts null after every value. Grouping asks whether two values are the same: a whole
double is the same as the integer of its size, as long as the doubles up to there are exact.
-/

namespace TableQuery.Scalar

/-- The order of two doubles; not-a-number has none. -/
def compareFloats? (a b : Float) : Option Ordering :=
  if a < b then some .lt
  else if a == b then some .eq
  else if b < a then some .gt
  else none

/-- The order of two values as a condition sees it. -/
def compare? : Scalar → Scalar → Option Ordering
  | .int a, .int b => some (compare a b)
  | .str a, .str b => some (compare a b)
  | .bool a, .bool b => some (compare a b)
  | a, b =>
    match a.toFloat?, b.toFloat? with
    | some x, some y => compareFloats? x y
    | _, _ => none

/-- The order of two values in a sort, null last. -/
def sortCompare (a b : Scalar) : Ordering :=
  match a.isNull, b.isNull with
  | true, true => .eq
  | true, false => .gt
  | false, true => .lt
  | false, false => (compare? a b).getD (compare a.kind.name b.kind.name)

/-- What makes two values the same member of a group. -/
inductive Identity where
  | null
  | bool (value : Bool)
  | int (value : Int64)
  /-- The bits of a double. -/
  | float (bits : UInt64)
  | str (value : String)
  deriving DecidableEq, Repr, Inhabited

/-- The greatest size of a whole double that is taken for an integer. -/
def wholeBound : Int :=
  9000000000000000

def identity : Scalar → Identity
  | .null => .null
  | .bool b => .bool b
  | .int i => .int i
  | .str s => .str s
  | .float x =>
    match Number.integral? x with
    | some i => if -wholeBound < i ∧ i < wholeBound then .int (.ofInt i) else .float x.toBits
    | none => .float x.toBits

/-- An identity as shown to a reader. -/
def Identity.shown : Identity → String
  | .null => "Null"
  | .bool b => if b then "Bool(true)" else "Bool(false)"
  | .int i => "Int(" ++ toString i.toInt ++ ")"
  | .float bits => "Float(" ++ toString bits.toNat ++ ")"
  | .str s => "Str(" ++ Text.quoted s ++ ")"

end TableQuery.Scalar
