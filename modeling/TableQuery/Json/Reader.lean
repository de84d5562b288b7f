import TableQuery.Json.Basic

/-!
# Reading JSON text

The reader accepts the standard grammar with at most 127 brackets inside one another. A number
without point and exponent is whole if it fits 64 bits, with or without sign; every other number is
a double: up to twenty digits are collected in a 64-bit significand, and one power of ten is then
multiplied in or divided out.
-/

namespace TableQuery.Json

/-- The blanks that may stand between the parts of a value. -/
def isSpace (c : Char) : Bool :=
  c = ' ' || c = '\n' || c = '\r' || c = '\t'

def skipSpaces (cs : List Char) : List Char :=
  cs.dropWhile isSpace

/-- The value of a hexadecimal digit. -/
def hexDigit? (c : Char) : Option Nat :=
  if c.isDigit then some (c.toNat - '0'.toNat)
  else if 'a' ≤ c ∧ c ≤ 'f' then some (c.toNat - 'a'.toNat + 10)
  else if 'A' ≤ c ∧ c ≤ 'F' then some (c.toNat - 'A'.toNat + 10)
  else none

/-- The value of four hexadecimal digits. -/
def hexFour? (a b c d : Char) : Option Nat := do
  return ((← hexDigit? a) * 16 + (← hexDigit? b)) * 256 + (← hexDigit? c) * 16 + (← hexDigit? d)

/-- The character that a letter after a backslash stands for. -/
def unescape? (c : Char) : Option Char :=
  match c with
  | '"' => some '"'
  | '\\' => some '\\'
  | '/' => some '/'
  | 'b' => some '\x08'
  | 'f' => some '\x0c'
  | 'n' => some '\n'
  | 'r' => some '\r'
  | 't' => some '\t'
  | _ => none

/-- The rest of a string after its opening quote. A character beyond sixteen bits is escaped as
two halves, which must stand together. -/
def readString : List Char → Option (List Char × List Char)
  | [] => none
  | '"' :: rest => some ([], rest)
  | '\\' :: 'u' :: a :: b :: c :: d :: '\\' :: 'u' :: e :: f :: g :: h :: rest =>
    match hexFour? a b c d with
    | none => none
    | some high =>
      if 0xD800 ≤ high ∧ high < 0xDC00 then
        match hexFour? e f g h with
        | none => none
        | some low =>
          if 0xDC00 ≤ low ∧ low < 0xE000 then
            (readString rest).map fun (s, r) =>
              (Char.ofNat (0x10000 + (high - 0xD800) * 0x400 + (low - 0xDC00)) :: s, r)
          else none
      else if 0xDC00 ≤ high ∧ high < 0xE000 then none
      else (readString ('\\' :: 'u' :: e :: f :: g :: h :: rest)).map fun (s, r) =>
        (Char.ofNat high :: s, r)
  | '\\' :: 'u' :: a :: b :: c :: d :: rest =>
    match hexFour? a b c d with
    | none => none
    | some n =>
      if 0xD800 ≤ n ∧ n < 0xE000 then none
      else (readString rest).map fun (s, r) => (Char.ofNat n :: s, r)
  | '\\' :: c :: rest =>
    match unescape? c with
    | none => none
    | some x => (readString rest).map fun (s, r) => (x :: s, r)
  | c :: rest =>
    if c.toNat < 32 ∨ c = '\\' then none
    else (readString rest).map fun (s, r) => (c :: s, r)

/-- Collect digits in a 64-bit significand; from the first digit on that does not fit, digits are
only counted. Gives the significand, the digits taken, the digits left out, and what follows. -/
def collect (full : Bool) (sum taken missed : Nat) : List Char → Nat × Nat × Nat × List Char
  | [] => (sum, taken, missed, [])
  | c :: cs =>
    if c.isDigit then
      let next := 10 * sum + (c.toNat - '0'.toNat)
      if full || next > 18446744073709551615 then collect true sum taken (missed + 1) cs
      else collect false next (taken + 1) missed cs
    else (sum, taken, missed, c :: cs)

/-- `significand · 10 ^ power` as a double, with one rounding for the significand and one for the
scaling; `none` if the result is too large. -/
def scaled? (significand : Nat) (power : Int) : Option Float :=
  let x := Float.ofNat significand
  match power with
  | .ofNat e =>
    if e ≤ 308 then
      let y := x * Float.ofScientific 1 false e
      if y.isFinite then some y else none
    else if significand = 0 then some x else none
  | .negSucc e =>
    let d := e + 1
    let far := Float.ofScientific 1 false 308
    if d ≤ 308 then some (x / Float.ofScientific 1 false d)
    else if d ≤ 616 then some (x / far / Float.ofScientific 1 false (d - 308))
    else some (x / far / far)

/-- The digits of an exponent, with their sign. -/
def readExponent (cs : List Char) : Option (Int × List Char) :=
  let (negative, cs) := match cs with
    | '+' :: r => (false, r)
    | '-' :: r => (true, r)
    | r => (false, r)
  let digits := cs.takeWhile Char.isDigit
  if digits.isEmpty then none
  else
    let n : Int := Int.ofNat (Nat.ofDigitChars 10 digits 0)
    some (if negative then -n else n, cs.dropWhile Char.isDigit)

/-- A number without its sign. -/
def readNumber (negative : Bool) (cs : List Char) : Option (Json × List Char) := do
  let first ← cs.head?
  guard first.isDigit
  let (sum, _, missed, rest) := collect false 0 0 0 cs
  guard !(first == '0' && (cs.drop 1).head?.any Char.isDigit)
  let signed (x : Float) : Float := if negative then -x else x
  let finish (significand : Nat) (power : Int) (rest : List Char) : Option (Json × List Char) := do
    let (e, rest) ← match rest with
      | 'e' :: r | 'E' :: r => readExponent r
      | r => some (0, r)
    return (.float (signed (← scaled? significand (power + e))), rest)
  match rest with
  | '.' :: r =>
    guard (r.head?.any Char.isDigit)
    let (all, taken, _, rest) := collect false sum 0 0 r
    finish all ((missed : Int) - taken) rest
  | 'e' :: _ | 'E' :: _ => finish sum missed rest
  | _ =>
    if missed > 0 then finish sum missed rest
    else if !negative then return (.int sum, rest)
    else if sum = 0 ∨ sum > 9223372036854775808 then return (.float (-(Float.ofNat sum)), rest)
    else return (.int (-(sum : Int)), rest)

/-- Items with commas between them, up to the closing bracket. -/
def readItems (item : List Char → Option (Json × List Char)) :
    Nat → List Char → Option (List Json × List Char)
  | 0, _ => none
  | n + 1, cs => do
    let (x, r) ← item cs
    match skipSpaces r with
    | ',' :: r =>
      let (xs, r) ← readItems item n r
      return (x :: xs, r)
    | ']' :: r => return ([x], r)
    | _ => none

/-- Fields with commas between them, up to the closing brace. -/
def readFields (item : List Char → Option (Json × List Char)) :
    Nat → List Char → Option (List (String × Json) × List Char)
  | 0, _ => none
  | n + 1, cs => do
    match skipSpaces cs with
    | '"' :: r =>
      let (key, r) ← readString r
      match skipSpaces r with
      | ':' :: r =>
        let (x, r) ← item r
        match skipSpaces r with
        | ',' :: r =>
          let (xs, r) ← readFields item n r
          return ((String.ofList key, x) :: xs, r)
        | '\x7d' :: r => return ([(String.ofList key, x)], r)
        | _ => none
      | _ => none
    | _ => none

/-- One value, with brackets nested fewer than `depth` deep. -/
def readValue : Nat → List Char → Option (Json × List Char)
  | depth, cs =>
    match skipSpaces cs with
    | 'n' :: 'u' :: 'l' :: 'l' :: r => some (.null, r)
    | 't' :: 'r' :: 'u' :: 'e' :: r => some (.bool true, r)
    | 'f' :: 'a' :: 'l' :: 's' :: 'e' :: r => some (.bool false, r)
    | '"' :: r => (readString r).map fun (s, r) => (.str (String.ofList s), r)
    | '-' :: r => readNumber true r
    | '[' :: r =>
      match depth with
      | 0 => none
      | depth + 1 =>
        match skipSpaces r with
        | ']' :: r => some (.arr [], r)
        | _ => (readItems (readValue depth) r.length r).map fun (xs, r) => (.arr xs, r)
    | '\x7b' :: r =>
      match depth with
      | 0 => none
      | depth + 1 =>
        match skipSpaces r with
        | '\x7d' :: r => some (.obj [], r)
        | _ => (readFields (readValue depth) r.length r).map fun (xs, r) => (.obj xs, r)
    | r => readNumber false r

/-- The value a whole text stands for. -/
def read? (text : String) : Option Json :=
  match readValue 127 text.toList with
  | some (x, rest) => if (skipSpaces rest).isEmpty then some x else none
  | none => none

end TableQuery.Json
