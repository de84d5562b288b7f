import TableQuery.Engine.Deferred
import TableQuery.Engine.Eager

/-!
# Engines

Operators are carried out by one of two engines: one works on tables at hand, the other one extends
plans. Both have the same operations, so a query does not depend on which of them runs it.
-/

namespace TableQuery

inductive Engine where
  | eager
  | deferred
  deriving DecidableEq, Repr, Inhabited

namespace Engine

/-- The name by which a session speaks of an engine. -/
def name : Engine → String
  | .eager => "local"
  | .deferred => "lazy"

/-- The engine of a name. -/
def ofName? : String → Option Engine
  | "local" => some .eager
  | "lazy" => some .deferred
  | _ => none

/-- The setting that names a directory of table files. -/
def sourceRootKey (e : Engine) : String :=
  e.name ++ ".source_root"

/-- Carry out one operation on a table at hand, or the other on a plan. -/
def apply (e : Engine) (onTable : Table → Except Fault Table) (onPlan : Plan → Except Fault Plan)
    (r : Relation) : Except Fault Relation :=
  match e with
  | .eager => do return .frame (← onTable (← r.collect))
  | .deferred => do return .plan (← onPlan r.toPlan)

/-- A table in the form that the engine works on. -/
def adopt (e : Engine) : Relation → Except Fault Relation :=
  e.apply .ok .ok

def extend (e : Engine) (fs : Functions) (items : List (String × Expr)) :
    Relation → Except Fault Relation :=
  e.apply (Eager.extend fs items) (Deferred.extend fs items)

def project (e : Engine) (fs : Functions) (items : List Selected) :
    Relation → Except Fault Relation :=
  e.apply (Eager.project fs items) (Deferred.project fs items)

def aggregate (e : Engine) (fs : Functions) (keys : List String) (items : List Reduced) :
    Relation → Except Fault Relation :=
  e.apply (Eager.aggregate fs keys items) (Deferred.aggregate fs keys items)

def filter (e : Engine) (fs : Functions) (condition : Expr) : Relation → Except Fault Relation :=
  e.apply (Eager.filter fs condition) (Deferred.filter fs condition)

def join (e : Engine) (p : JoinPlan) (left right : Relation) : Except Fault Relation :=
  match e with
  | .eager => do return .frame (← Eager.join p (← left.collect) (← right.collect))
  | .deferred => do return .plan (← Deferred.join p left.toPlan right.toPlan)

def sort (e : Engine) (keys : List (String × Bool)) : Relation → Except Fault Relation :=
  e.apply (Eager.sort keys) fun p => .ok (.sort keys p)

def window (e : Engine) (offset count : UInt64) : Relation → Except Fault Relation :=
  e.apply (fun t => .ok (Eager.window offset count t))
    fun p => .ok (Deferred.window offset count p)

def select (e : Engine) (names : List String) : Relation → Except Fault Relation :=
  e.apply (Table.select names) fun p => .ok (.project (Deferred.copies names) p)

end Engine

end TableQuery
