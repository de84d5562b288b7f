import TableQuery.Json.Reader
import TableQuery.Operator.Basic

/-!
# Operators as JSON

A record is an object with its fields in order. A choice with data is an object with one field,
named for the choice; one without data is a string. Reading is more lenient than writing: a record
may also be the list of its field values, other fields are passed over, and a choice without data
may be written as a field with null.
-/

namespace TableQuery

namespace Json

/-- A choice with data. -/
def choice (name : String) (data : Json) : Json :=
  .obj [(name, data)]

/-- The values of the named fields of a record, each of which has to be there once. -/
def record? (names : List String) : Json → Option (List Json)
  | .obj fields => names.mapM fun name =>
    match fields.filter fun (key, _) => key = name with
    | [(_, x)] => some x
    | _ => none
  | .arr items => if items.length = names.length then some items else none
  | _ => none

/-- A choice and its data, null if there is none. -/
def choice? : Json → Option (String × Json)
  | .str name => some (name, .null)
  | .obj [(name, data)] => some (name, data)
  | _ => none

def bool? : Json → Option Bool
  | .bool b => some b
  | _ => none

def str? : Json → Option String
  | .str s => some s
  | _ => none

/-- A whole number of 64 bits with sign. -/
def int64? : Json → Option Int64
  | .int i => Number.toInt64? i
  | _ => none

/-- A whole number of 64 bits without sign. -/
def uint64? : Json → Option UInt64
  | .int (.ofNat n) => if n < UInt64.size then some (.ofNat n) else none
  | _ => none

/-- A double, which may be written as a whole number. -/
def float? : Json → Option Float
  | .float x => some x
  | .int i => some (Float.ofInt i)
  | _ => none

/-- A list whose items all can be read. -/
def list? {α : Type} (item : Json → Option α) : Json → Option (List α)
  | .arr items => items.mapM item
  | _ => none

end Json

open Json (choice record? choice?)

namespace Scalar

def toJson : Scalar → Json
  | .null => .str "Null"
  | .bool b => choice "Bool" (.bool b)
  | .int i => choice "Int" (.int i.toInt)
  | .float x => choice "Float" (.float x)
  | .str s => choice "Str" (.str s)

def ofJson? (j : Json) : Option Scalar := do
  match ← choice? j with
  | ("Null", .null) => some .null
  | ("Bool", x) => x.bool?.map .bool
  | ("Int", x) => x.int64?.map .int
  | ("Float", x) => x.float?.map .float
  | ("Str", x) => x.str?.map .str
  | _ => none

end Scalar

namespace BinaryOp

/-- The name of an operator in a JSON text. -/
def name : BinaryOp → String
  | .add => "Add"
  | .sub => "Sub"
  | .mul => "Mul"
  | .div => "Div"
  | .mod => "Mod"
  | .eq => "Eq"
  | .ne => "NotEq"
  | .lt => "Lt"
  | .le => "LtEq"
  | .gt => "Gt"
  | .ge => "GtEq"
  | .and => "And"
  | .or => "Or"

def ofJson? (j : Json) : Option BinaryOp := do
  match ← choice? j with
  | (name, .null) => all.find? fun op => op.name = name
  | _ => none

end BinaryOp

/-- A column as a record. -/
def columnJson (name : String) : Json :=
  .obj [("name", .str name)]

def columnOfJson? (j : Json) : Option String := do
  match ← record? ["name"] j with
  | [name] => name.str?
  | _ => none

namespace Expr

mutual

def toJson : Expr → Json
  | .literal l => choice "Literal" l.toJson
  | .column name => choice "Column" (columnJson name)
  | .call name args => choice "Call" (.obj [("name", .str name), ("args", .arr (toJsons args))])
  | .countStar => .str "CountStar"
  | .neg e => choice "Unary" (.obj [("op", .str "Neg"), ("expr", toJson e)])
  | .not e => choice "Unary" (.obj [("op", .str "Not"), ("expr", toJson e)])
  | .binary op l r =>
    choice "Binary" (.obj [("left", toJson l), ("op", .str op.name), ("right", toJson r)])
  | .isNull e negated =>
    choice "IsNull" (.obj [("expr", toJson e), ("negated", .bool negated)])
  | .inList e items negated =>
    choice "InList"
      (.obj [("expr", toJson e), ("list", .arr (toJsons items)), ("negated", .bool negated)])

def toJsons : List Expr → List Json
  | [] => []
  | e :: es => toJson e :: toJsons es

end

/-- An expression whose parts are read by `part`. -/
def ofJsonWith (part : Json → Option Expr) (j : Json) : Option Expr := do
  match ← choice? j with
  | ("Literal", x) => (Scalar.ofJson? x).map .literal
  | ("Column", x) => (columnOfJson? x).map .column
  | ("CountStar", .null) => some .countStar
  | ("Call", x) =>
    match ← record? ["name", "args"] x with
    | [name, args] => return .call (← name.str?) (← args.list? part)
    | _ => none
  | ("Unary", x) =>
    match ← record? ["op", "expr"] x with
    | [op, e] =>
      match ← choice? op with
      | ("Neg", .null) => return .neg (← part e)
      | ("Not", .null) => return .not (← part e)
      | _ => none
    | _ => none
  | ("Binary", x) =>
    match ← record? ["left", "op", "right"] x with
    | [l, op, r] => return .binary (← BinaryOp.ofJson? op) (← part l) (← part r)
    | _ => none
  | ("IsNull", x) =>
    match ← record? ["expr", "negated"] x with
    | [e, negated] => return .isNull (← part e) (← negated.bool?)
    | _ => none
  | ("InList", x) =>
    match ← record? ["expr", "list", "negated"] x with
    | [e, items, negated] => return .inList (← part e) (← items.list? part) (← negated.bool?)
    | _ => none
  | _ => none

/-- An expression with at most `n` parts inside one another. -/
def ofJsonWithin : Nat → Json → Option Expr
  | 0 => ofJsonWith fun _ => none
  | n + 1 => ofJsonWith (ofJsonWithin n)

def ofJson? (j : Json) : Option Expr :=
  ofJsonWithin j.depth j

end Expr

namespace TableRef

def toJson (t : TableRef) : Json :=
  .obj [("source", .str t.source), ("alias", .str t.label)]

def ofJson? (j : Json) : Option TableRef := do
  match ← record? ["source", "alias"] j with
  | [source, label] => return ⟨← source.str?, ← label.str?⟩
  | _ => none

end TableRef

namespace Item

def toJson (i : Item) : Json :=
  .obj [("expr", i.expr.toJson), ("text", .str i.text), ("alias", .str i.label)]

def ofJson? (j : Json) : Option Item := do
  match ← record? ["expr", "text", "alias"] j with
  | [e, text, label] => return ⟨← Expr.ofJson? e, ← text.str?, ← label.str?⟩
  | _ => none

end Item

namespace JoinMode

/-- The name of a mode in a JSON text. -/
def name : JoinMode → String
  | .left => "Left"
  | .right => "Right"
  | .inner => "Inner"

def ofJson? (j : Json) : Option JoinMode := do
  match ← choice? j with
  | ("Left", .null) => some .left
  | ("Right", .null) => some .right
  | ("Inner", .null) => some .inner
  | _ => none

end JoinMode

namespace JoinKey

def toJson (k : JoinKey) : Json :=
  .obj [("first", columnJson k.first), ("second", columnJson k.second)]

def ofJson? (j : Json) : Option JoinKey := do
  match ← record? ["first", "second"] j with
  | [first, second] => return ⟨← columnOfJson? first, ← columnOfJson? second⟩
  | _ => none

end JoinKey

namespace OrderItem

def toJson (i : OrderItem) : Json :=
  .obj [("item", i.item.toJson), ("ascending", .bool i.ascending)]

def ofJson? (j : Json) : Option OrderItem := do
  match ← record? ["item", "ascending"] j with
  | [item, ascending] => return ⟨← Item.ofJson? item, ← ascending.bool?⟩
  | _ => none

end OrderItem

namespace Operator

def toJson : Operator → Json
  | .load table => choice "Load" table.toJson
  | .join table mode on =>
    choice "Join" (.obj [("table", table.toJson), ("mode", .str mode.name),
      ("on", .arr (on.map JoinKey.toJson))])
  | .project items => choice "Project" (.arr (items.map Item.toJson))
  | .filter condition => choice "Filter" (.str condition)
  | .group keys projection =>
    choice "Group" (.obj [("keys", .arr (keys.map Item.toJson)),
      ("projection", .arr (projection.map Item.toJson))])
  | .order items => choice "Order" (.arr (items.map OrderItem.toJson))
  | .limit offset count =>
    choice "Limit" (.obj [("offset", .int offset.toNat), ("count", .int count.toNat)])

def ofJson? (j : Json) : Option Operator := do
  match ← choice? j with
  | ("Load", x) => (TableRef.ofJson? x).map .load
  | ("Join", x) =>
    match ← record? ["table", "mode", "on"] x with
    | [table, mode, on] =>
      return .join (← TableRef.ofJson? table) (← JoinMode.ofJson? mode)
        (← on.list? JoinKey.ofJson?)
    | _ => none
  | ("Project", x) => (x.list? Item.ofJson?).map .project
  | ("Filter", x) => x.str?.map .filter
  | ("Group", x) =>
    match ← record? ["keys", "projection"] x with
    | [keys, projection] =>
      return .group (← keys.list? Item.ofJson?) (← projection.list? Item.ofJson?)
    | _ => none
  | ("Order", x) => (x.list? OrderItem.ofJson?).map .order
  | ("Limit", x) =>
    match ← record? ["offset", "count"] x with
    | [offset, count] => return .limit (← offset.uint64?) (← count.uint64?)
    | _ => none
  | _ => none

/-- The JSON text of a sequence of operators. -/
def writeAll (os : List Operator) : String :=
  (Json.arr (os.map toJson)).compact

/-- The sequence of operators that a JSON text spells. -/
def readAll? (text : String) : Option (List Operator) := do
  (← Json.read? text).list? ofJson?

end Operator

end TableQuery
