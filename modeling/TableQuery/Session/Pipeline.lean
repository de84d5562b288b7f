import TableQuery.Grouping
import TableQuery.Session.Basic
import TableQuery.Sql.Equality
import TableQuery.Sql.Select

/-!
# Running operators

A sequence of operators hands one table on from each operator to the next. It begins by loading a
table; after grouping the table waits for a selection. An operator that fails ends the run, and the
failure tells which one it was. Faults in the types of a deferred table belong to the operator that
brings them in, so the columns are looked at after every step.
-/

namespace TableQuery

/-- A group key with the column that holds it. -/
structure GroupKey where
  column : String
  item : Item
  deriving Inhabited

/-- The table between two operators, with its keys if it is grouped. -/
structure Working where
  table : Relation
  keys : Option (List GroupKey)
  deriving Inhabited

namespace Working

/-- A table that is not grouped. -/
def plain (r : Relation) : Working :=
  ⟨r, none⟩

/-- The table, if it is not grouped. -/
def intoPlain (what : String) (w : Working) : Except Fault Relation :=
  match w.keys with
  | none => .ok w.table
  | some _ => .error (.execution (.grouped what))

end Working

/-- What a run leaves unchanged: the engine it began on, and the functions. -/
structure Setting where
  engine : Engine
  functions : Functions

namespace Setting

variable (c : Setting)

/-- Load the table of a reference. -/
def load (t : TableRef) : SessionM Relation := do
  let r ← Session.loadTable t.source (if t.isAliased then some t.label else none) none
  c.engine.adopt r

/-- Join another table. -/
def join (input : Working) (t : TableRef) (mode : JoinMode) (on : List JoinKey) :
    SessionM Working := do
  let left ← input.intoPlain "JOIN"
  let right ← c.load t
  let plan ← JoinPlan.ofKeys mode t.label on (← left.names) (← right.names)
  return .plain (← c.engine.join plan left right)

/-- What an item selects from a table with the given columns. -/
def selected (columns : List String) (i : Item) : Selected :=
  match i.expr.asColumn?.bind fun name => Name.resolve? name columns with
  | some source => .column source i.label
  | none => .computed i.expr i.label

/-- What an item selects from the groups of a table. -/
def reduced (keys : List GroupKey) (i : Item) : Slot → Reduced
  | .key k =>
    match keys[k]? with
    | some key => .key key.column i.label
    | none => .aggregate i.expr i.label
  | .aggregate => .aggregate i.expr i.label

/-- Select items of a table, or aggregate its groups. -/
def project (input : Working) (items : List Item) : Except Fault Working :=
  match input.keys with
  | none => do
    let columns ← input.table.names
    return .plain (← c.engine.project c.functions (items.map (selected columns)) input.table)
  | some keys => do
    let slots ← slots (keys.map GroupKey.item) items
    let plan := (items.zip slots).map fun (i, slot) => reduced keys i slot
    return .plain
      (← c.engine.aggregate c.functions (keys.map GroupKey.column) plan input.table)

/-- Keep the rows for which a condition says yes. -/
def filter (input : Working) (condition : String) : Except Fault Working := do
  let e ← match Expr.parse (Sql.pairSigns condition) with
    | .ok e => pure e
    | .error cause => throw (.parse cause)
  return .plain (← c.engine.filter c.functions e (← input.intoPlain "FILTER"))

/-- The column that holds a group key. -/
def keyColumn (columns : List String) (key : Item) : Except Fault String :=
  match key.expr.asColumn? with
  | some name => Name.resolve name columns
  | none => .ok key.label

/-- Group a table by keys, of which those that are no columns are computed first. -/
def group (input : Working) (keys projection : List Item) : Except Fault Working := do
  let r ← input.intoPlain "GROUP"
  let columns ← r.names
  let resolved ← keys.mapM fun key => do
    return (⟨← keyColumn columns key, key⟩ : GroupKey)
  let _ ← slots keys projection
  let computed := (keys.filter fun key => key.expr.asColumn?.isNone).map
    fun key => (key.label, key.expr)
  let r ← if computed.isEmpty then pure r else c.engine.extend c.functions computed r
  return ⟨r, some resolved⟩

/-- The helper column of the sort key at a place. -/
def orderHelper (i : Nat) : String := s!"__fq_order_{i}"

/-- The column that a sort key already is, by its name or by its text. -/
def orderColumn? (columns : List String) (i : Item) : Option String :=
  match i.expr.asColumn?.bind fun name => Name.resolve? name columns with
  | some column => some column
  | none => columns.find? (· = i.text)

/-- Sort the rows by keys, of which those that are no columns are computed first. -/
def order (input : Working) (items : List OrderItem) : Except Fault Working := do
  let r ← input.intoPlain "ORDER"
  let columns ← r.names
  let found := items.zipIdx.map fun (o, i) => (o, i, orderColumn? columns o.item)
  let keys := found.map fun (o, i, column) => (column.getD (orderHelper i), !o.ascending)
  let computed := (found.filter fun (_, _, column) => column.isNone).map
    fun (o, i, _) => (orderHelper i, o.item.expr)
  if computed.isEmpty then return .plain (← c.engine.sort keys r)
  let r ← c.engine.extend c.functions computed r
  return .plain (← c.engine.select columns (← c.engine.sort keys r))

/-- Carry out one operator. -/
def step (op : Operator) (input : Option Working) : SessionM Working :=
  match op, input with
  | .load t, none => do return .plain (← c.load t)
  | .load _, some _ => throw (.execution .loadNotFirst)
  | op, none => throw (.execution (.firstNotLoad op.kind))
  | .join t mode on, some w => c.join w t mode on
  | .project items, some w => c.project w items
  | .filter condition, some w => c.filter w condition
  | .group keys projection, some w => c.group w keys projection
  | .order items, some w => c.order w items
  | .limit offset count, some w => do
    return .plain (← c.engine.window offset count (← w.intoPlain "LIMIT"))

/-- Carry out one operator, and look at the columns of the result. -/
def checkedStep (op : Operator) (input : Option Working) : SessionM Working := do
  let w ← c.step op input
  let _ ← w.table.names
  return w

end Setting

/-- A run of operators on a session. -/
abbrev RunM := ExceptT Failure (StateM Session)

namespace Setting

/-- Carry out operators with numbers from `i` on. The fault of an operator is put in a stage. -/
def executeFrom (c : Setting) (i : Nat) (current : Option Working) :
    List Operator → RunM Working
  | [] =>
    match current with
    | some w => return w
    | none => throw (.plain (.execution .noOperators))
  | op :: ops => do
    let w ← (c.checkedStep op current).adapt fun f => (.execution (.stage ⟨i, op.text⟩ f) : Failure)
    executeFrom c (i + 1) (some w) ops

end Setting

/-- Carry out a sequence of operators on the engine in use. -/
def execute (functions : Functions) (ops : List Operator) : RunM Working := do
  Setting.executeFrom ⟨(← get).engine, functions⟩ 0 none ops

/-- The table that a sequence of operators gives. -/
def executePlain (functions : Functions) (ops : List Operator) : RunM Relation := do
  (← execute functions ops).intoPlain "result"

/-- The table that a sequence of operators gives, at hand. -/
def executeCollect (functions : Functions) (ops : List Operator) : RunM Table := do
  (← executePlain functions ops).collect

/-- The operators of a query text. -/
def operatorsOf (query : String) : Except Failure (List Operator) :=
  match Select.parse query with
  | .ok s => .ok s.operators
  | .error cause => .error (.plain (.parse cause))

/-- The table that a query gives. -/
def run (functions : Functions) (query : String) : RunM Relation := do
  executePlain functions (← operatorsOf query)

/-- The table that a query gives, at hand. -/
def runCollect (functions : Functions) (query : String) : RunM Table := do
  executeCollect functions (← operatorsOf query)

/-- The table that a query gives, with further tables and settings put into the session first. -/
def runWith (functions : Functions) (query : String) (tables : List (String × Relation))
    (settings : List (String × Json)) : RunM Relation := do
  modify fun s => (s.addTables tables).mergeConfig settings
  run functions query

end TableQuery
