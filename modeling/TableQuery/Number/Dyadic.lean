/-!
# Finite doubles as integers times powers of two

Every finite double is a whole number times a power of two. Reading that pair off the bits makes
questions about a double into questions about whole numbers: whether it is whole, what its exact
remainder is, which decimals lie closest to it.
-/

namespace TableQuery.Number

/-- The number `± mantissa · 2 ^ exponent`. -/
structure Dyadic where
  negative : Bool
  mantissa : Nat
  exponent : Int
  deriving DecidableEq, Repr

/-- The least mantissa of a double whose leading bit is not stored, `2 ^ 52`. -/
def leastNormal : Nat := 0x10000000000000

/-- The dyadic form of a finite double; infinities and not-a-number have none. -/
def Dyadic.ofFloat? (x : Float) : Option Dyadic :=
  let bits : Nat := x.toBits.toNat
  let negative : Bool := bits / 0x8000000000000000 == 1
  let scale : Nat := bits / leastNormal % 2048
  let fraction : Nat := bits % leastNormal
  if scale = 2047 then none
  else if scale = 0 then some ⟨negative, fraction, -1074⟩
  else some ⟨negative, fraction + leastNormal, (scale : Int) - 1075⟩

/-- Whether a double carries the minus sign, zero included. -/
def isNegative (x : Float) : Bool :=
  x.toBits.toNat / 0x8000000000000000 == 1

/-- The whole number a double is equal to, if it is whole. -/
def integral? (x : Float) : Option Int := do
  let d ← Dyadic.ofFloat? x
  let signed (n : Nat) : Int := if d.negative then -(n : Int) else n
  match d.exponent with
  | .ofNat e => some (signed (d.mantissa * Nat.pow 2 e))
  | .negSucc e =>
    let unit := Nat.pow 2 (e + 1)
    if d.mantissa % unit = 0 then some (signed (d.mantissa / unit)) else none

/-- The double nearest to `n · 2 ^ e`, exact whenever that number is a double. -/
def scaledByTwo (n : Nat) (e : Int) : Float :=
  match e with
  | .ofNat e => Float.ofNat (n * Nat.pow 2 e)
  | .negSucc e =>
    let first := min (e + 1) 1000
    Float.ofNat n / Float.ofNat (Nat.pow 2 first) / Float.ofNat (Nat.pow 2 (e + 1 - first))

/-- The remainder of division toward zero, computed exactly: it has the sign of `a`. -/
def remainder (a b : Float) : Float :=
  match Dyadic.ofFloat? a, Dyadic.ofFloat? b with
  | some x, some y =>
    if y.mantissa = 0 then 0.0 / 0.0
    else
      let low := min x.exponent y.exponent
      let shift (d : Dyadic) : Nat := d.mantissa * Nat.pow 2 (d.exponent - low).toNat
      let r := scaledByTwo (shift x % shift y) low
      if x.negative then -r else r
  | some _, none => if b.isNaN then b else a
  | none, _ => 0.0 / 0.0

/-- The remainder that has the sign of the divisor. -/
def flooredRemainder (a b : Float) : Float :=
  let r := remainder a b
  if r != 0.0 && (r < 0.0) != (b < 0.0) then r + b else r

end TableQuery.Number
