import TableQuery.Calendar
import TableQuery.Number.Scaled
import TableQuery.Scalar.Basic

/-!
# Column types and cells

A column holds cells of one type, any of which may be missing. Whole numbers of every width, dates
(as days) and decimals (as multiples of their last place) are kept as integers; the type of the
column says what they mean. Within a type cells are totally ordered: not-a-number equals itself and
comes after every other number, and the two zeros are equal.
-/

namespace TableQuery

inductive ColumnType where
  | null
  | bool
  | int32
  | int64
  | uint32
  | uint64
  | float32
  | float64
  | str
  | binary
  /-- Days since the first of January 1970. -/
  | date
  /-- Decimals with so many digits in all, if that is limited, and so many places behind the
  point. -/
  | decimal (precision : Option Nat) (scale : Nat)
  deriving DecidableEq, Repr, Inhabited

namespace ColumnType

def name : ColumnType → String
  | .null => "null"
  | .bool => "bool"
  | .int32 => "i32"
  | .int64 => "i64"
  | .uint32 => "u32"
  | .uint64 => "u64"
  | .float32 => "f32"
  | .float64 => "f64"
  | .str => "str"
  | .binary => "binary"
  | .date => "date"
  | .decimal p s => "decimal[" ++ (p.elim "*" toString) ++ "," ++ toString s ++ "]"

def isInteger : ColumnType → Bool
  | .int32 | .int64 | .uint32 | .uint64 => true
  | _ => false

def isFloat : ColumnType → Bool
  | .float32 | .float64 => true
  | _ => false

def isDecimal : ColumnType → Bool
  | .decimal .. => true
  | _ => false

/-- Whether the cells of a type can serve as conditions. -/
def hasTruth : ColumnType → Bool
  | .binary => false
  | _ => true

/-- The least and the greatest integer of a type of whole numbers. -/
def bounds? : ColumnType → Option (Int × Int)
  | .int32 => some (Int32.minValue.toInt, Int32.maxValue.toInt)
  | .int64 => some (Int64.minValue.toInt, Int64.maxValue.toInt)
  | .uint32 => some (0, UInt32.size - 1)
  | .uint64 => some (0, UInt64.size - 1)
  | .date => some (Int32.minValue.toInt, Int32.maxValue.toInt)
  | _ => none

/-- The integer of a type that is equal to the given one modulo the number of its values. -/
def wrap (t : ColumnType) (i : Int) : Int :=
  match t.bounds? with
  | some (low, high) => (i - low) % (high - low + 1) + low
  | none => i

end ColumnType

inductive Cell where
  | null
  | bool (value : Bool)
  | int (value : Int)
  | float (value : Float)
  | str (value : String)
  | bytes (value : List UInt8)
  deriving Inhabited, Repr

namespace Cell

def isNull : Cell → Bool
  | .null => true
  | _ => false

/-- The total order of doubles in which not-a-number comes last. -/
def compareFloats (a b : Float) : Ordering :=
  if a < b then .lt
  else if a == b then .eq
  else if b < a then .gt
  else compare a.isNaN b.isNaN

/-- The order of two cells of one type. -/
def order : Cell → Cell → Ordering
  | .bool a, .bool b => compare a b
  | .int a, .int b => compare a b
  | .float a, .float b => compareFloats a b
  | .str a, .str b => compare a b
  | .bytes a, .bytes b => compare (a.map UInt8.toNat) (b.map UInt8.toNat)
  | a, b => compare a.isNull b.isNull

/-- Whether two cells of one type hold the same value; two missing ones do. -/
def same (a b : Cell) : Bool :=
  a.isNull == b.isNull && order a b == .eq

/-- A byte as shown: itself if it is a visible ASCII character, else by its number. -/
def shownByte (b : UInt8) : List Char :=
  if 0x21 ≤ b.toNat && b.toNat ≤ 0x7e then [Char.ofNat b.toNat]
  else
    let digits := Nat.toDigits 16 b.toNat
    '\\' :: 'x' :: List.replicate (2 - digits.length) '0' ++ digits

/-- Bytes as shown, at most sixty of them. -/
def shownBytes (bs : List UInt8) : String :=
  "b\"" ++ String.ofList ((bs.take 60).flatMap shownByte) ++
    if bs.length > 60 then "\"…" else "\""

/-- The double nearest to a decimal. -/
def decimalToFloat (units : Int) (scale : Nat) : Float :=
  Float.ofInt units / Float.ofNat (Nat.pow 10 scale)

/-- The value that expressions compute with: dates as their days, decimals as doubles, bytes as
text. An integer beyond 64 bits with sign is a double. -/
def scalar (type : ColumnType) : Cell → Scalar
  | .null => .null
  | .bool b => .bool b
  | .int i =>
    match type with
    | .decimal _ scale => .float (decimalToFloat i scale)
    | _ =>
      match Number.toInt64? i with
      | some x => .int x
      | none => .float (Float.ofInt i)
  | .float x => .float x
  | .str s => .str s
  | .bytes bs => .str (shownBytes bs)

/-- The type and the cell of a scalar. -/
def ofScalar : Scalar → ColumnType × Cell
  | .null => (.null, .null)
  | .bool b => (.bool, .bool b)
  | .int i => (.int64, .int i.toInt)
  | .float x => (.float64, .float x)
  | .str s => (.str, .str s)

/-- What a cell says as a condition, if it is not missing. -/
def truth? : Cell → Option Bool
  | .null => none
  | .bool b => some b
  | .int i => some (i != 0)
  | .float x => some (x != 0.0 && !x.isNaN)
  | .str s => some (!s.isEmpty)
  | .bytes bs => some (!bs.isEmpty)

/-- The cell of a truth value that may be unknown. -/
def ofTruth : Option Bool → Cell
  | some b => .bool b
  | none => .null

end Cell

end TableQuery
