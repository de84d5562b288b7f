import TableQuery.Formula.Basic

/-!
# Types of formulas

A formula has a type by the types of the columns alone, so it is checked before there are any rows.
The type is a promise, and may be narrower than the type that is computed in: beside a literal the
numbers of a product or a remainder are promised in the type of the other operand, and a decimal
beside a whole number is promised as it is. A comparison is promised truth values whatever it
compares; that its operands have no type in common shows when it is computed.
-/

namespace TableQuery

namespace BinaryOp

/-- Whether a literal operand gives way to the type of the other one. -/
def yieldsToColumn : BinaryOp → Bool
  | .mul | .mod | .and | .or => true
  | _ => false

end BinaryOp

namespace ColumnType

/-- The type of arithmetic on numbers of one type: decimals get the places that the exact result
needs, without a limit on their digits. -/
def ofArithmetic (op : BinaryOp) : ColumnType → ColumnType
  | .decimal _ scale => .decimal none (if op = .mul then scale + scale else scale)
  | t => t

/-- The type that two operands are brought to, and the type of the result. Truth values are added
and multiplied as numbers. -/
def operands (op : BinaryOp) (a b : ColumnType) : Except Fault (ColumnType × ColumnType) :=
  if op = .div then .ok (.float64, .float64)
  else
    match a.common? b with
    | none => .error (.columns (.types a.name b.name))
    | some t =>
      if op.isComparison then .ok (t, .bool)
      else if op = .and ∨ op = .or then
        if t = .bool || t = .null || t.isInteger then .ok (t, t)
        else .error (.columns (.unsupported t.name))
      else if t = .bool then .ok (.uint32, .uint32)
      else if t = .binary || t = .date || (t = .str && op ≠ .add) then
        .error (.columns (.unsupported t.name))
      else .ok (t, t.ofArithmetic op)

/-- Whether two types hold numbers of one kind, whole ones or doubles. -/
def alike (a b : ColumnType) : Bool :=
  (a.isInteger && b.isInteger) || (a.isFloat && b.isFloat)

/-- The type promised for a binary operator, by the types of its operands and whether each of them
is a literal. -/
def promised (op : BinaryOp) (a b : ColumnType × Bool) : Except Fault ColumnType := do
  if op.isComparison then return .bool
  let (meeting, result) ← operands op a.1 b.1
  if op.yieldsToColumn && a.1.alike b.1 && a.2 != b.2 then
    return if a.2 then b.1 else a.1
  return match a.1, b.1, result with
    | .decimal _ s, .decimal _ t, .decimal .. =>
      .decimal none (if op = .mul then s + t else if op = .mod then s else max s t)
    | _, _, .decimal .. => meeting
    | _, _, result => result

/-- The type of the bits or the truth value turned around. -/
def complemented (t : ColumnType) : Except Fault ColumnType :=
  if t = .bool || t.isInteger then .ok t else .error (.columns (.unsupported t.name))

/-- The type of a choice between two types. -/
def chosen (a b : ColumnType) : Except Fault ColumnType :=
  match a.choice? b with
  | some t => .ok t
  | none => .error (.columns (.types a.name b.name))

/-- The type of an aggregate of cells of a type. What has no mean keeps its type. -/
def reduced (a : Aggregate) (t : ColumnType) : Except Fault ColumnType :=
  match a with
  | .count => .ok .int64
  | .sum =>
    match t with
    | .bool => .ok .uint32
    | .str | .binary => .error (.columns (.unsupported t.name))
    | t => .ok t
  | .avg =>
    match t with
    | .null | .str | .binary | .float32 => .ok t
    | .date => .error (.columns (.unsupported t.name))
    | _ => .ok .float64
  | _ => .ok t

/-- The type of the sizes of numbers. -/
def sized (t : ColumnType) : Except Fault ColumnType :=
  if t.isInteger || t.isFloat then .ok t else .error (.columns (.unsupported t.name))

end ColumnType

/-- The type of the column of a name. -/
def Schema.typeOf (s : Schema) (name : String) : Except Fault ColumnType :=
  match s.lookup name with
  | some t => .ok t
  | none => .error (.columns (.missing name))

namespace Formula

/-- Whether a formula is a literal. -/
def isLiteral : Formula → Bool
  | .const _ => true
  | _ => false

/-- The type of a formula over columns of the given types. -/
def typeOver (s : Schema) : Formula → Except Fault ColumnType
  | .const x => .ok (Cell.ofScalar x).1
  | .column name => s.typeOf name
  | .rowCount => .ok .int64
  | .binary op l r => do
    ColumnType.promised op (← typeOver s l, l.isLiteral) (← typeOver s r, r.isLiteral)
  | .not f => do (← typeOver s f).complemented
  | .isNull f _ => do
    let _ ← typeOver s f
    return .bool
  | .present f => do
    let _ ← typeOver s f
    return .bool
  | .truth f => do
    let _ ← typeOver s f
    return .bool
  | .choose c y n => do
    let _ ← typeOver s c
    ColumnType.chosen (← typeOver s y) (← typeOver s n)
  | .aggregate a f => do ColumnType.reduced a (← typeOver s f)
  | .repeated f => typeOver s f
  | .size f => do (← typeOver s f).sized

end Formula

end TableQuery
