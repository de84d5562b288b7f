/-!
# Exact arithmetic on 64-bit integers

A sum, difference or product of two 64-bit integers is a 64-bit integer when the exact result lies
in range, and has no 64-bit form otherwise. A remainder always has one.
-/

namespace TableQuery.Number

/-- The 64-bit form of an integer, if it has one. -/
def toInt64? (i : Int) : Option Int64 :=
  if Int64.minValue.toInt ≤ i ∧ i ≤ Int64.maxValue.toInt then some (Int64.ofInt i) else none

/-- The double nearest to an integer. -/
def toFloat (i : Int64) : Float :=
  Float.ofInt i.toInt

/-- Whether a remainder has another sign than its divisor. -/
def isOpposed (r b : Int64) : Bool :=
  r != 0 && decide (r < 0) != decide (b < 0)

/-- The remainder that has the sign of the divisor, for a divisor other than zero: the one of
division toward zero, moved on by the divisor where the signs differ. -/
def flooredRem (a b : Int64) : Int64 :=
  let r := a % b
  if isOpposed r b then r + b else r

/-- The 64-bit form keeps the integer. -/
theorem toInt_of_toInt64? {i : Int} {x : Int64} (h : toInt64? i = some x) : x.toInt = i := by
  unfold toInt64? at h
  split at h
  · next hi =>
    cases h
    rw [Int64.toInt_ofInt]
    have h₁ : Int64.minValue.toInt = -2 ^ 63 := rfl
    have h₂ : Int64.maxValue.toInt = 2 ^ 63 - 1 := rfl
    have h₃ : Int64.size = 2 ^ 64 := rfl
    exact Int.bmod_eq_of_le (by rw [h₃]; omega) (by rw [h₃]; omega)
  · cases h

/-- Every 64-bit integer is its own form. -/
theorem toInt64?_toInt (x : Int64) : toInt64? x.toInt = some x := by
  have h₁ := x.minValue_le_toInt
  have h₂ := x.toInt_le
  unfold toInt64?
  rw [if_pos ⟨h₁, by simpa using h₂⟩, Int64.ofInt_toInt]

end TableQuery.Number
