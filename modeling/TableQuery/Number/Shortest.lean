import TableQuery.Number.Dyadic

/-!
# The shortest decimal of a double

Among the decimals that read back as a given double, the one with the fewest digits is chosen, and
of those the one nearest to the double; which of two equally near ones is up to the format. On each
grid of decimals with a fixed number of digits only the two neighbours of the double can be the
answer, so the grids are tried from the coarsest on.
-/

namespace TableQuery.Number

/-- The number `digits · 10 ^ power`. -/
structure Decimal where
  digits : Nat
  power : Int
  deriving DecidableEq, Repr

/-- The doubles next to `4 m · 2 ^ (e - 2)` end their reach at these multiples of `2 ^ (e - 2)`:
half-way to the neighbours, of which the lower one is nearer where the exponent changes. -/
def reach (d : Dyadic) : Nat × Nat :=
  let low := if d.mantissa = leastNormal ∧ d.exponent ≠ -1074 then 4 * d.mantissa - 1
    else 4 * d.mantissa - 2
  (low, 4 * d.mantissa + 2)

/-- The power of ten of the leading digit. -/
def leadingPower (d : Dyadic) : Int :=
  let scaled := match d.exponent with
    | .ofNat e => d.mantissa * Nat.pow 2 e * Nat.pow 10 400
    | .negSucc e => d.mantissa * Nat.pow 10 400 / Nat.pow 2 (e + 1)
  ((Nat.toDigits 10 scaled).length : Int) - 401

/-- Which of two equally near decimals is chosen. -/
inductive Tie
  | larger
  | even
  deriving DecidableEq, Repr

/-- Whether the upper one of the neighbours `n` and `n + 1` is chosen, given their distances from
the number between them. -/
def Tie.choosesUpper (t : Tie) (n toLower toUpper : Nat) : Bool :=
  toUpper < toLower || (toUpper == toLower && (t == .larger || n % 2 == 1))

/-- The best decimal on the grid of multiples of `10 ^ k`, if one reads back as the double. -/
def onGrid (t : Tie) (d : Dyadic) (k : Int) : Option Nat :=
  let q := d.exponent - 2
  let unit := Nat.pow 10 k.toNat * Nat.pow 2 (-q).toNat
  let step := Nat.pow 2 q.toNat * Nat.pow 10 (-k).toNat
  let value := 4 * d.mantissa * step
  let (low, high) := reach d
  let inside (n : Nat) : Bool :=
    if d.mantissa % 2 = 0 then low * step ≤ n * unit && n * unit ≤ high * step
    else low * step < n * unit && n * unit < high * step
  let below := value / unit
  match inside below, inside (below + 1) with
  | true, true =>
    let up := t.choosesUpper below (value - below * unit) ((below + 1) * unit - value)
    some (if up then below + 1 else below)
  | true, false => some below
  | false, true => some (below + 1)
  | false, false => none

/-- The decimal with its final zeros moved into the power of ten. -/
def Decimal.normal : Nat → Decimal → Decimal
  | 0, x => x
  | n + 1, x => if x.digits ≠ 0 ∧ x.digits % 10 = 0
    then Decimal.normal n ⟨x.digits / 10, x.power + 1⟩ else x

/-- The shortest decimal of a positive double. Seventeen digits always suffice. -/
def shortest (t : Tie) (d : Dyadic) : Decimal :=
  let top := leadingPower d
  let grids := (List.range 17).map fun (n : Nat) => top - (n : Int)
  match grids.findSome? fun k => (onGrid t d k).map fun n => (⟨n, k⟩ : Decimal) with
  | some x => x.normal 20
  | none => ⟨0, 0⟩

end TableQuery.Number
