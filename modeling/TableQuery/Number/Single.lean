import TableQuery.Number.Dyadic

/-!
# Single precision

A narrow column keeps its numbers with twenty-four significant bits and exponents from -149 on.
Sums, differences, products and quotients of such numbers may be computed as doubles and rounded
once more, because a double has more than twice as many bits.
-/

namespace TableQuery.Number

/-- Division by a power of two, to the nearest whole number, a tie to the even one. -/
def halfEven (n shift : Nat) : Nat :=
  let unit := Nat.pow 2 shift
  let q := n / unit
  let r := 2 * (n % unit)
  if r > unit || (r == unit && q % 2 == 1) then q + 1 else q

/-- The number of single precision nearest to a double. -/
def toSingle (x : Float) : Float :=
  match Dyadic.ofFloat? x with
  | none => x
  | some d =>
    let excess : Int := (Nat.log2 d.mantissa : Int) - 23
    let shift := max excess (-149 - d.exponent) |>.toNat
    let y := scaledByTwo (halfEven d.mantissa shift) (d.exponent + shift)
    let y := if y ≥ scaledByTwo 1 128 then 1.0 / 0.0 else y
    if d.negative then -y else y

end TableQuery.Number
