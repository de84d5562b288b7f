/-!
# Decimals with a fixed number of places

A decimal column keeps its numbers as whole multiples of a power of one tenth.
-/

namespace TableQuery.Number

/-- The text of `units · 10 ^ -places`. -/
def scaledText (units : Int) (places : Nat) : String :=
  let sign := if units < 0 then "-" else ""
  let n := units.natAbs
  let unit := Nat.pow 10 places
  let whole := toString (n / unit)
  if places = 0 then sign ++ whole
  else
    let part := Nat.toDigits 10 (n % unit)
    sign ++ whole ++ "." ++ String.ofList (List.replicate (places - part.length) '0' ++ part)

/-- The number written by decimal digits; other characters do not count. -/
def ofDigits (cs : List Char) : Nat :=
  cs.foldl (fun n c => if c.isDigit then 10 * n + (c.toNat - '0'.toNat) else n) 0

/-- Units of a decimal text at the given number of places; missing places are zeros. -/
def scaledOfText (text : String) (places : Nat) : Int :=
  let cs := text.toList
  let negative := cs.head? == some '-'
  let whole := cs.takeWhile (· != '.')
  let part := ((cs.dropWhile (· != '.')).drop 1).take places
  let units := ofDigits (whole ++ part) * Nat.pow 10 (places - part.length)
  if negative then -(units : Int) else units

end TableQuery.Number
