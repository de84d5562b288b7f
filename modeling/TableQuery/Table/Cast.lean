import TableQuery.Number.Single
import TableQuery.Table.Cell

/-!
# Changing the type of cells

Cells of two types meet in the narrowest type that holds both: truth values are numbers, numbers
may become doubles, and null goes with every type. A cell that has no counterpart in the new type
becomes missing.
-/

namespace TableQuery

namespace ColumnType

/-- A rank among the number types; a number goes with every number of a higher rank. -/
def rank : ColumnType → Nat
  | .bool => 1
  | .int32 => 2
  | .uint32 => 3
  | .int64 => 4
  | .uint64 => 5
  | .float32 => 6
  | .float64 => 7
  | _ => 0

/-- The type in which two number types meet, the first of lower or equal rank. -/
def joinNumbers (a b : ColumnType) : ColumnType :=
  match a, b with
  | .int32, .uint32 => .int64
  | .int32, .uint64 => .float64
  | .int64, .uint64 => .float64
  | .bool, .float32 => .float32
  | .float32, .float32 => .float32
  | _, .float32 => .float64
  | _, b => b

/-- The type in which a decimal meets another number: the decimal holds whole numbers, and doubles
hold the decimal. -/
def besideDecimal? (decimal t : ColumnType) : Option ColumnType :=
  if t.isFloat then some t
  else if t.isInteger then some decimal
  else none

/-- The type in which a date meets a number; unsigned whole numbers get a sign. -/
def besideDate? (t : ColumnType) : Option ColumnType :=
  if t = .uint32 || t = .uint64 then some .int64
  else if t.isInteger || t.isFloat then some t
  else none

/-- The greater of two limits on the digits of decimals; a limit goes before none. -/
def widerLimit : Option Nat → Option Nat → Option Nat
  | some p, some q => some (max p q)
  | some p, none => some p
  | none, q => q

/-- The type in which two types meet, if there is one. -/
def common? (a b : ColumnType) : Option ColumnType :=
  if a = b then some a
  else
    match a, b with
    | .null, b => some b
    | a, .null => some a
    | .decimal p s, .decimal q t => some (.decimal (widerLimit p q) (max s t))
    | .decimal p s, b => besideDecimal? (.decimal p s) b
    | a, .decimal p s => besideDecimal? (.decimal p s) a
    | .date, b => besideDate? b
    | a, .date => besideDate? a
    | .str, .binary => some .binary
    | .binary, .str => some .binary
    | a, b =>
      if a.rank = 0 || b.rank = 0 then none
      else if a.rank ≤ b.rank then some (joinNumbers a b) else some (joinNumbers b a)

/-- The type in which the branches of a choice meet; texts take in every type but bytes, which take
in texts. -/
def choice? (a b : ColumnType) : Option ColumnType :=
  match common? a b with
  | some t => some t
  | none =>
    match a, b with
    | .str, _ => some .str
    | _, .str => some .str
    | _, _ => none

end ColumnType

namespace Cell

/-- The plain text of a cell that is not missing. -/
def text (type : ColumnType) : Cell → String
  | .null => "null"
  | .bool b => if b then "true" else "false"
  | .int i =>
    match type with
    | .date => (Calendar.Date.ofDays i).text
    | .decimal _ scale => Number.scaledText i scale
    | _ => toString i
  | .float x => Number.Layout.plain.write x
  | .str s => s
  | .bytes bs => shownBytes bs

/-- The integer, if it belongs to the type of whole numbers. -/
def fit (type : ColumnType) (i : Int) : Cell :=
  match type.bounds? with
  | some (low, high) => if low ≤ i ∧ i ≤ high then .int i else .null
  | none => .int i

/-- So many units of the last place of a decimal, if the decimal has digits enough. No decimal has
more than 38. -/
def fitDecimal (precision : Option Nat) (units : Int) : Cell :=
  if units.natAbs < Nat.pow 10 (precision.getD 38) then .int units else .null

/-- A double as a decimal; places beyond the last one are cut off. -/
def floatToDecimal (precision : Option Nat) (scale : Nat) (x : Float) : Cell :=
  let units := x * Float.ofNat (Nat.pow 10 scale)
  match Number.integral? (if units < 0.0 then units.ceil else units.floor) with
  | some i => fitDecimal precision i
  | none => .null

/-- A number as a double. -/
def toFloat? (type : ColumnType) : Cell → Option Float
  | .bool b => some (if b then 1.0 else 0.0)
  | .int i =>
    match type with
    | .decimal _ scale => some (decimalToFloat i scale)
    | _ => some (Float.ofInt i)
  | .float x => some x
  | _ => none

/-- A whole number as an integer. -/
def toInt? : Cell → Option Int
  | .bool b => some (if b then 1 else 0)
  | .int i => some i
  | _ => none

/-- A cell of one type as a cell of another, missing if it has no counterpart there. Decimal places
that go are rounded down. -/
def cast (source target : ColumnType) (c : Cell) : Cell :=
  if source = target || c.isNull then c
  else
    match target with
    | .null => .null
    | .bool => ofTruth c.truth?
    | .float64 => (c.toFloat? source).elim .null .float
    | .float32 => (c.toFloat? source).elim .null fun x => .float (Number.toSingle x)
    | .decimal precision scale =>
      match source, c with
      | .decimal _ s, .int i =>
        fitDecimal precision
          (if s ≤ scale then i * Nat.pow 10 (scale - s) else i / Nat.pow 10 (s - scale))
      | _, .float x => floatToDecimal precision scale x
      | _, c => c.toInt?.elim .null fun i => fitDecimal precision (i * Nat.pow 10 scale)
    | .str => .str (c.text source)
    | .binary =>
      match c with
      | .str s => .bytes s.toUTF8.toList
      | _ => .null
    | t => if source.isDecimal then .null else c.toInt?.elim .null (fit t)

end Cell

end TableQuery
