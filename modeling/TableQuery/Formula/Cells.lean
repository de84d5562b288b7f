import TableQuery.Aggregate.Name
import TableQuery.Formula.Spread
import TableQuery.Table.Basic
import TableQuery.Truth

/-!
# Operators on cells of one type

The operands of a formula are brought to a common type first. Whole numbers wrap around at the ends
of their type. Their remainder by zero is missing, but zero where both operands are known without a
table. `AND`, `OR` and `NOT` work on truth values, and on the bits of whole numbers.
-/

namespace TableQuery

namespace Cell

/-- A double rounded to the type of its column. -/
def roundTo (type : ColumnType) (x : Float) : Float :=
  if type = .float32 then Number.toSingle x else x

/-- Arithmetic on whole numbers. -/
def arithmeticInt (type : ColumnType) (op : BinaryOp) (fixed : Fixed) (a b : Int) : Cell :=
  match op with
  | .add => .int (type.wrap (a + b))
  | .sub => .int (type.wrap (a - b))
  | .mul => .int (type.wrap (a * b))
  | .mod =>
    if b ≠ 0 then .int (type.wrap (a.fmod b))
    else if fixed = .both then .int 0
    else .null
  | _ => .null

/-- Arithmetic on doubles. A divisor that is the same for a whole column is inverted once; adding or
subtracting such a zero changes nothing, and subtracting from it changes the sign. -/
def arithmeticFloat (type : ColumnType) (op : BinaryOp) (fixed : Fixed) (a b : Float) : Cell :=
  let rounded := roundTo type
  let quotient := if fixed = .right then rounded (a * rounded (1.0 / b)) else rounded (a / b)
  match op with
  | .add =>
    .float (if fixed = .right && b == 0.0 then a
      else if fixed = .left && a == 0.0 then b
      else rounded (a + b))
  | .sub =>
    .float (if fixed = .right && b == 0.0 then a
      else if fixed = .left && a == 0.0 then -b
      else rounded (a - b))
  | .mul => .float (rounded (a * b))
  | .div => .float quotient
  | .mod => .float (rounded (a - rounded (b * quotient.floor)))
  | _ => .null

/-- The comparison of two cells. Not-a-number equals itself in a column, but a number known without
a table differs from it and is neither less nor greater. -/
def compared (op : BinaryOp) (fixed : Fixed) (a b : Cell) : Bool :=
  match fixed, a, b with
  | .both, .float x, .float y =>
    if x.isNaN || y.isNaN then op = .ne else op.accepts (order a b)
  | _, _, _ => op.accepts (order a b)

/-- An operation on the bits of two whole numbers. -/
def bitwise (type : ColumnType) (f : BitVec 64 → BitVec 64 → BitVec 64) (a b : Int) : Cell :=
  .int (type.wrap (f (.ofInt 64 a) (.ofInt 64 b)).toInt)

/-- A binary operator on two cells of the given type. -/
def binary (type : ColumnType) (op : BinaryOp) (fixed : Fixed) (a b : Cell) : Cell :=
  match op with
  | .and =>
    match a, b with
    | .int x, .int y => bitwise type (· &&& ·) x y
    | a, b =>
      if type.isInteger then .null else ofTruth (Truth.both a.truth? b.truth?)
  | .or =>
    match a, b with
    | .int x, .int y => bitwise type (· ||| ·) x y
    | a, b =>
      if type.isInteger then .null else ofTruth (Truth.either a.truth? b.truth?)
  | op =>
    if a.isNull || b.isNull then .null
    else if op.isComparison then .bool (compared op fixed a b)
    else
      match a, b with
      | .int x, .int y => arithmeticInt type op fixed x y
      | .float x, .float y => arithmeticFloat type op fixed x y
      | .str x, .str y => .str (x ++ y)
      | _, _ => .null

/-- The opposite truth value, or the opposite bits of a whole number. -/
def complement (type : ColumnType) : Cell → Cell
  | .bool b => .bool (!b)
  | .int i => .int (type.wrap (-i - 1))
  | _ => .null

/-- Whether a cell is neither missing nor not-a-number. -/
def isPresent : Cell → Bool
  | .null => false
  | .float x => !x.isNaN
  | _ => true

/-- The size of a number. -/
def size (type : ColumnType) : Cell → Cell
  | .int i => .int (type.wrap i.natAbs)
  | .float x => .float x.abs
  | _ => .null

/-- The sum of doubles, from left to right. Over a whole column it begins at zero, and within a
group with the first of them, so that negative zeros alone keep their sign. -/
def total (inGroup : Bool) (rounded : Float → Float) (xs : List Float) : Float :=
  match inGroup, xs with
  | true, x :: rest => rest.foldl (fun s x => rounded (s + x)) x
  | _, xs => xs.foldl (fun s x => rounded (s + x)) 0.0

/-- The sum of cells that are not missing. -/
def sumOf (type : ColumnType) (inGroup : Bool) (cells : List Cell) : Cell :=
  if type.isFloat then
    .float (total inGroup (roundTo type) (cells.filterMap (toFloat? type)))
  else if type = .null || type = .date then .null
  else
    let result := if type = .bool then ColumnType.uint32 else type
    .int (result.wrap (cells.foldl (fun s c => s + c.toInt?.getD 0) 0))

/-- The mean of the numbers among cells. The sum over a whole column is taken in doubles. -/
def meanOf (type : ColumnType) (inGroup : Bool) (cells : List Cell) : Cell :=
  match cells.filterMap (toFloat? type) with
  | [] => .null
  | xs =>
    let sum := total inGroup (if inGroup then roundTo type else id) xs
    .float (roundTo type (sum / Float.ofNat xs.length))

/-- The last of the least cells. -/
def least : List Cell → Cell
  | [] => .null
  | c :: cs => cs.foldl (fun best c => if order best c == .lt then best else c) c

/-- The first of the greatest cells. -/
def greatest : List Cell → Cell
  | [] => .null
  | c :: cs => cs.foldl (fun best c => if order c best == .gt then c else best) c

/-- The value of an aggregate for the cells of a whole column of the given type, or of a group of
its rows. Not-a-number is no extreme while there are numbers. -/
def reduce (a : Aggregate) (type : ColumnType) (inGroup : Bool) (cells : List Cell) : Cell :=
  let known := cells.filter fun c => !c.isNull
  let present := known.filter isPresent
  let extremes := if present.isEmpty then known else present
  match a with
  | .count => .int known.length
  | .first => cells.head?.getD .null
  | .last => cells.getLast?.getD .null
  | .sum => sumOf type inGroup known
  | .avg => meanOf type inGroup known
  | .min => least extremes
  | .max => greatest extremes

end Cell

end TableQuery
