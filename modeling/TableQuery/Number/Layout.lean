import TableQuery.Number.Shortest

/-!
# Written forms of doubles

A layout says which numbers are written without an exponent and how the parts are spelled. Three
layouts are in use: plain text, which never has an exponent; the form of literals, which always
shows that the number is a double; and the form of JSON numbers.
-/

namespace TableQuery.Number

/-- The choices that fix the written form of a double. -/
structure Layout where
  /-- Lowest and highest power of ten of the leading digit written without an exponent;
  `none` if there is no exponent form. -/
  positional : Option (Int × Int)
  /-- Whether whole numbers end in `.0`. -/
  marksWhole : Bool
  /-- Sign in front of an exponent that is not negative. -/
  exponentSign : String
  /-- The choice between two shortest forms that are equally near. -/
  tie : Tie

/-- Plain text: all digits, whole numbers without a point. -/
def Layout.plain : Layout := ⟨none, false, "", .larger⟩

/-- Literals: powers from -4 to 15 in full, whole numbers with `.0`. -/
def Layout.literal : Layout := ⟨some (-4, 15), true, "", .larger⟩

/-- JSON numbers: powers from -5 to 15 in full, whole numbers with `.0`, exponents signed. -/
def Layout.json : Layout := ⟨some (-5, 15), true, "+", .even⟩

def zeros (n : Nat) : String :=
  String.ofList (List.replicate n '0')

/-- Digits of a decimal whose leading digit has the power `top`, in full. -/
def Layout.writeFull (l : Layout) (digits : List Char) (top : Int) : String :=
  match top with
  | .negSucc n => "0." ++ zeros n ++ String.ofList digits
  | .ofNat n =>
    let whole := digits.take (n + 1)
    let part := digits.drop (n + 1)
    String.ofList whole ++ zeros (n + 1 - whole.length) ++
      if part.isEmpty then (if l.marksWhole then ".0" else "") else "." ++ String.ofList part

/-- Digits of a decimal whose leading digit has the power `top`, with an exponent. -/
def Layout.writeExponent (l : Layout) (digits : List Char) (top : Int) : String :=
  let part := digits.drop 1
  String.ofList (digits.take 1) ++
    (if part.isEmpty then "" else "." ++ String.ofList part) ++
    "e" ++ (if top < 0 then "" else l.exponentSign) ++ toString top

/-- The written form of a double. -/
def Layout.write (l : Layout) (x : Float) : String :=
  if x.isNaN then "NaN"
  else
    let sign := if isNegative x then "-" else ""
    match Dyadic.ofFloat? x with
    | none => sign ++ "inf"
    | some d =>
      if d.mantissa = 0 then sign ++ "0" ++ if l.marksWhole then ".0" else ""
      else
        let best := shortest l.tie d
        let digits := Nat.toDigits 10 best.digits
        let top := best.power + (digits.length : Int) - 1
        let full := match l.positional with
          | none => true
          | some (low, high) => low ≤ top && top ≤ high
        sign ++ if full then l.writeFull digits top else l.writeExponent digits top

end TableQuery.Number
