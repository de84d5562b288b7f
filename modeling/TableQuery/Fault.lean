import TableQuery.Json.Basic
import TableQuery.Name
import TableQuery.Sql.SyntaxError

/-!
# Faults

Every way in which a query can fail, as a cause with its particulars; the wording is a function of
the cause. The fault of an operator in a sequence stands in a stage, which says which operator it
was. A stage holds a fault of any form, so there could be stages in stages; the root is what is
behind all of them.
-/

namespace TableQuery

/-- What is wrong with the value of a setting. -/
inductive SettingFault where
  | notBoolean (value : Json)
  | notString (value : Json)
  | notList
  deriving Inhabited

def SettingFault.message : SettingFault → String
  | .notBoolean x => "expected a boolean, got " ++ x.compact
  | .notString x => "expected a string, got " ++ x.compact
  | .notList => "not a list"

/-- What makes an expression meaningless, or its value undefined. -/
inductive ExprFault where
  /-- A function has another number of arguments; without `most` there is no upper bound. -/
  | argumentCount (function : String) (least : Nat) (most : Option Nat) (given : Nat)
  | aggregateArgumentCount (function : String) (given : Nat)
  | aggregateOutsideGroup (function : String)
  | nestedAggregate (function : String)
  | operands (op : BinaryOp) (left right : Scalar.Kind)
  | incomparable (left right : Scalar.Kind)
  | negated (value : Scalar)
  | manyValues
  /-- The type of a condition has no truth values. -/
  | noTruth (type : String)
  | other (text : String)
  deriving Inhabited

def ExprFault.message : ExprFault → String
  | .argumentCount f least most given =>
    let wanted := match most with
      | some m => if m = least then toString least else s!"{least}..{m}"
      | none => s!"at least {least}"
    s!"{f} expects {wanted} argument(s), got {given}"
  | .aggregateArgumentCount f given => s!"{f} expects 1 argument, got {given}"
  | .aggregateOutsideGroup f => s!"aggregate {f} used outside of a grouped projection"
  | .nestedAggregate f => s!"aggregate {f} nested inside another aggregate"
  | .operands op l r => s!"cannot apply '{op.symbol}' to {l.name} and {r.name}"
  | .incomparable l r => s!"cannot compare {l.name} with {r.name}"
  | .negated x => s!"cannot negate '{x.text}'"
  | .manyValues => "expression does not reduce to a single value per group"
  | .noTruth t => s!"predicate of type {t} has no truth value"
  | .other text => text

inductive JoinFault where
  | unattributed (first second label : String)
  | ambiguous (column qualified : String)
  deriving DecidableEq, Repr, Inhabited

def JoinFault.message : JoinFault → String
  | .unattributed a b t => s!"cannot attribute join condition {a} = {b} to table {t}"
  | .ambiguous c q => s!"cannot disambiguate column {c}: {q} already exists"

/-- What is wrong with columns as such: their names, their types, or the file that holds them. -/
inductive ColumnFault where
  | missing (column : String)
  | duplicate (column : String)
  | unequalLengths (column : String)
  | types (left right : String)
  | unsupported (type : String)
  | unreadable
  deriving DecidableEq, Repr, Inhabited

def ColumnFault.message : ColumnFault → String
  | .missing c => s!"no column {c}"
  | .duplicate c => s!"column {c} occurs twice"
  | .unequalLengths c => s!"column {c} has another length"
  | .types l r => s!"types {l} and {r} do not go together"
  | .unsupported t => s!"no such operation on type {t}"
  | .unreadable => "not a table file"

/-- The place of an operator in its sequence, and its written form. -/
structure Stage where
  index : Nat
  operator : String
  deriving DecidableEq, Repr, Inhabited

mutual

/-- What stops operators that are well formed. -/
inductive RunFault where
  | noOperators
  | loadNotFirst
  | firstNotLoad (kind : String)
  /-- A grouped table where a plain one is wanted. -/
  | grouped (what : String)
  | duplicateOutput (column : String)
  | lengths (first second : Nat)
  | notLoaded (column : String)
  | sumOf (value : Scalar)
  | meanOf (value : Scalar)
  | unordered (value best : Scalar)
  | other (text : String)
  /-- The operator of a sequence has failed, with a fault of its own. -/
  | stage (place : Stage) (source : Fault)

inductive Fault where
  | parse (cause : Sql.SyntaxError)
  | noTable (name : String)
  | noSetting (key : String)
  | badSetting (key : String) (cause : SettingFault)
  | noColumn (name : String) (available : List String)
  | noFunction (name : String)
  | expression (cause : ExprFault)
  /-- Group keys that are not selected, and selected items that are no group keys. -/
  | grouping (missing extra : List String)
  | join (cause : JoinFault)
  | execution (cause : RunFault)
  | columns (cause : ColumnFault)

end

instance : Inhabited RunFault := ⟨.noOperators⟩

instance : Inhabited Fault := ⟨.execution .noOperators⟩

namespace Fault

/-- The fault behind all stages. -/
@[simp]
def root : Fault → Fault
  | .execution (.stage _ f) => f.root
  | f => f

/-- The four kinds under which faults are reported. -/
inductive Kind where
  | parse
  | context
  | expression
  | execution
  deriving DecidableEq, Repr, Inhabited

def Kind.name : Kind → String
  | .parse => "parse_error"
  | .context => "context_error"
  | .expression => "translation_error"
  | .execution => "exec_error"

/-- The kind of what is behind all stages. -/
def kind (f : Fault) : Kind :=
  match f.root with
  | .parse _ => .parse
  | .noTable _ => .context
  | .noSetting _ => .context
  | .badSetting .. => .context
  | .noColumn .. => .expression
  | .noFunction _ => .expression
  | .expression _ => .expression
  | .grouping .. => .execution
  | .join _ => .execution
  | .execution _ => .execution
  | .columns _ => .execution

end Fault

mutual

def RunFault.message : RunFault → String
  | .noOperators => "empty operator sequence"
  | .loadNotFirst => "LOAD may only start a pipeline"
  | .firstNotLoad kind => s!"pipeline must start with LOAD, found {kind}"
  | .grouped what => s!"{what} cannot run on a grouped table; project it first"
  | .duplicateOutput c => s!"duplicate output column {c}"
  | .lengths m n => s!"column length mismatch: {m} vs {n}"
  | .notLoaded c => s!"column {c} was not materialised"
  | .sumOf x => s!"SUM over non-numeric value '{x.text}'"
  | .meanOf x => s!"AVG over non-numeric value '{x.text}'"
  | .unordered x y => s!"cannot compare '{x.text}' with '{y.text}'"
  | .other text => text
  | .stage s f => s!"operator #{s.index} {s.operator} failed: {f.message}"

/-- The wording of a fault. A stage tells its operator and goes on with the fault in it. -/
def Fault.message : Fault → String
  | .parse e => "parse error: " ++ e.message
  | .noTable name => s!"table {name} not found"
  | .noSetting key => s!"config key {key} not found"
  | .badSetting key e => s!"invalid config {key}: {e.message}"
  | .noColumn name available =>
    s!"invalid column {name}; available columns: [" ++ ", ".intercalate available ++ "]"
  | .noFunction name => s!"udf [{name}] not defined"
  | .expression e => "invalid expression: " ++ e.message
  | .grouping missing extra =>
    "group-by keys " ++ Text.quotedList missing ++
      " not used in select clause; non-aggregate columns " ++ Text.quotedList extra ++
      " are not group-by keys"
  | .join e => "join error: " ++ e.message
  | .execution (.stage s f) => RunFault.message (.stage s f)
  | .execution e => "execution error: " ++ e.message
  | .columns e => e.message

end

/-- What a run fails with: the fault of an operator in its stage, or a fault outside the
operators. -/
abbrev Failure := Fault

namespace Failure

/-- A fault outside any sequence of operators. -/
def plain (f : Fault) : Failure :=
  f

/-- The operator that a failure tells. -/
def stage : Failure → Option Stage
  | .execution (.stage s _) => some s
  | _ => none

/-- The fault without the operators that it tells. -/
def fault (f : Failure) : Fault :=
  f.root

end Failure

namespace Name

/-- The column of a table that a written name denotes. -/
def resolve (name : String) (columns : List String) : Except Fault String :=
  match resolve? name columns with
  | some c => .ok c
  | none => .error (.noColumn name columns)

end Name

end TableQuery
