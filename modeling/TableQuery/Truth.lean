/-!
# Truth values that may be unknown

An operand that decides the result does so whatever the other one is; otherwise an unknown operand
makes the result unknown.
-/

namespace TableQuery.Truth

/-- Conjunction. -/
def both (a b : Option Bool) : Option Bool :=
  match a, b with
  | some false, _ => some false
  | _, some false => some false
  | some true, some true => some true
  | _, _ => none

/-- Disjunction. -/
def either (a b : Option Bool) : Option Bool :=
  match a, b with
  | some true, _ => some true
  | _, some true => some true
  | some false, some false => some false
  | _, _ => none

end TableQuery.Truth
