import TableQuery.Formula.Basic
import TableQuery.Registry

/-!
# Scalar functions

A function has two faces, which have to agree: it is applied to values, and it is written as a
formula over the formulas of its arguments, if it has one over so many. Functions are known by name
in any case of letters, and a call must have as many arguments as its function takes.
-/

namespace TableQuery

structure ScalarFunction where
  /-- The least number of arguments. -/
  least : Nat
  /-- The greatest number of arguments, if there is one. -/
  most : Option Nat
  apply : List (Datum Scalar) → Except Fault (Datum Scalar)
  formula : List Formula → Except ExprFault Formula

namespace ScalarFunction

/-- Whether a function takes so many arguments. -/
def takes (f : ScalarFunction) (count : Nat) : Bool :=
  f.least ≤ count && f.most.all (count ≤ ·)

end ScalarFunction

/-- The functions that calls refer to, by their names in capitals. -/
abbrev Functions := Registry ScalarFunction

namespace Functions

/-- Add a function, or replace the one of its name. -/
def register (name : String) (f : ScalarFunction) (fs : Functions) : Functions :=
  fs.insert (Text.upper name) f

/-- The function that a call with so many arguments refers to. -/
def resolve (name : String) (count : Nat) (fs : Functions) : Except Fault ScalarFunction :=
  match fs.get? (Text.upper name) with
  | none => .error (.noFunction name)
  | some f =>
    if f.takes count then .ok f
    else .error (.expression (.argumentCount name f.least f.most count))

/-- The functions as shown to a reader. -/
def shown (fs : Functions) : String :=
  "FunctionRegistry \x7b functions: " ++ Text.quotedList fs.names ++ " \x7d"

/-- What a call refers to takes its arguments. -/
theorem takes_of_resolve {name : String} {count : Nat} {fs : Functions} {f : ScalarFunction}
    (h : resolve name count fs = .ok f) : f.takes count = true := by
  unfold resolve at h
  split at h
  · cases h
  · split at h
    · next ht => cases h; exact ht
    · cases h

end Functions

end TableQuery
