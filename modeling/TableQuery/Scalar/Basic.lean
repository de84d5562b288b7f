import TableQuery.Number.Exact
import TableQuery.Number.Layout
import TableQuery.Text.Escaped

/-!
# Scalars

The values that expressions compute with: null, truth values, 64-bit integers, doubles and texts.
Literals are scalars too. Scalars of different kinds are never the same value, but numbers of
different kinds compare by size.
-/

namespace TableQuery

inductive Scalar where
  | null
  | bool (value : Bool)
  | int (value : Int64)
  | float (value : Float)
  | str (value : String)
  deriving Inhabited, Repr

namespace Scalar

/-- The kinds of scalars. -/
inductive Kind where
  | null
  | bool
  | int
  | float
  | str
  deriving DecidableEq, Repr, Inhabited

def Kind.name : Kind → String
  | .null => "null"
  | .bool => "bool"
  | .int => "int"
  | .float => "float"
  | .str => "str"

def kind : Scalar → Kind
  | .null => .null
  | .bool _ => .bool
  | .int _ => .int
  | .float _ => .float
  | .str _ => .str

/-- Equality of kind and value; doubles compare as numbers, so not-a-number equals nothing and the
two zeros are equal. -/
def same : Scalar → Scalar → Bool
  | .null, .null => true
  | .bool a, .bool b => a == b
  | .int a, .int b => a == b
  | .float a, .float b => a == b
  | .str a, .str b => a == b
  | _, _ => false

instance : BEq Scalar := ⟨same⟩

def isNull : Scalar → Bool
  | .null => true
  | _ => false

/-- Whether a value counts as absent: null and not-a-number. -/
def isMissing : Scalar → Bool
  | .null => true
  | .float x => x.isNaN
  | _ => false

/-- The value as a double; texts and null have none. -/
def toFloat? : Scalar → Option Float
  | .bool b => some (if b then 1.0 else 0.0)
  | .int i => some (Number.toFloat i)
  | .float x => some x
  | .null => none
  | .str _ => none

/-- What a value says as a condition. Zero, not-a-number and the empty text say no; null says
neither. -/
def truth? : Scalar → Option Bool
  | .null => none
  | .bool b => some b
  | .int i => some (i != 0)
  | .float x => some (x != 0.0 && !x.isNaN)
  | .str s => some (!s.isEmpty)

/-- Whether a value says yes as a condition. -/
def holds (s : Scalar) : Bool :=
  s.truth? == some true

/-- The scalar of a truth value that may be unknown. -/
def ofTruth : Option Bool → Scalar
  | some b => .bool b
  | none => .null

/-- The plain text of a value. -/
def text : Scalar → String
  | .null => "null"
  | .bool b => if b then "true" else "false"
  | .int i => toString i.toInt
  | .float x => Number.Layout.plain.write x
  | .str s => s

/-- A value with its kind, as shown to a reader. -/
def shown : Scalar → String
  | .null => "Null"
  | .bool b => if b then "Bool(true)" else "Bool(false)"
  | .int i => "Int(" ++ toString i.toInt ++ ")"
  | .float x => "Float(" ++ Number.Layout.literal.write x ++ ")"
  | .str s => "Str(" ++ Text.quoted s ++ ")"

/-- A text between single quotes. -/
def quote (s : String) : String :=
  "'" ++ String.ofList (s.toList.flatMap fun c => if c = '\'' then ['\'', '\''] else [c]) ++ "'"

/-- A value as it is written in a query. -/
def written : Scalar → String
  | .null => "NULL"
  | .bool b => if b then "TRUE" else "FALSE"
  | .int i => toString i.toInt
  | .float x => Number.Layout.literal.write x
  | .str s => quote s

end Scalar

end TableQuery
