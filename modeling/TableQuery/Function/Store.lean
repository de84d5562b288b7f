import TableQuery.Function.Basic

/-!
# Shared functions

Functions are kept in a store and known by a handle. Whoever holds a handle finds what was
registered through it, no matter by whom. Functions that are to stay what they are get a handle of
their own.
-/

namespace TableQuery

/-- The place of functions in a store. -/
abbrev Handle := Nat

/-- The functions behind the handles. -/
abbrev Store := List Functions

namespace Store

/-- The functions behind a handle. -/
def read (σ : Store) (h : Handle) : Functions :=
  (σ[h]?).getD []

/-- Add a function to those behind a handle. -/
def register (σ : Store) (h : Handle) (name : String) (f : ScalarFunction) : Store :=
  σ.modify h (Functions.register name f)

/-- The store with further functions, behind the handle `σ.length`. -/
def add (σ : Store) (fs : Functions) : Store :=
  σ ++ [fs]

end Store

end TableQuery
