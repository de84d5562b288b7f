import TableQuery.Function.Basic

/-!
# Built-in functions

`COALESCE` and `IFNULL` give the first argument that is neither null nor not-a-number; `IF` gives
one of two arguments by a condition, and an unknown condition gives the second. Two more functions
serve hosts that add their own.
-/

namespace TableQuery.ScalarFunction

/-- The first of several values that is not missing. -/
def firstPresent (xs : List Scalar) : Scalar :=
  (xs.find? fun x => !x.isMissing).getD .null

/-- The first argument that is not missing, place by place. -/
def applyCoalesce (args : List (Datum Scalar)) : Except Fault (Datum Scalar) := do
  let pick (i : Nat) : Scalar := firstPresent (args.map fun a => a.scalarAt i)
  match ← Datum.commonLength args with
  | none => return .one (pick 0)
  | some n => return .many ((List.range n).map pick)

def coalesce (least : Nat) (most : Option Nat) : ScalarFunction :=
  ⟨least, most, applyCoalesce, fun fs => .ok (Formula.firstPresent fs)⟩

/-- One of two arguments by a condition; a single condition chooses whole columns. -/
def applyIf : List (Datum Scalar) → Except Fault (Datum Scalar)
  | [condition, yes, no] =>
    match condition with
    | .one c => .ok (if c.holds then yes else no)
    | .many cs => do
      let n := (← Datum.commonLength [.many cs, yes, no]).getD 1
      return .many <| (List.range n).map fun i =>
        if ((Datum.many cs).scalarAt i).holds then yes.scalarAt i else no.scalarAt i
  | _ => .ok (.one .null)

def choice : ScalarFunction :=
  ⟨3, some 3, applyIf, fun
    | [condition, yes, no] => .ok (.choose condition yes no)
    | _ => .error (.other "IF expects 3 arguments")⟩

/-- The size of a number, without its sign. -/
def sizeOf (x : Scalar) : Except Fault Scalar :=
  match x with
  | .null => .ok .null
  | .int i => .ok (Scalar.exactOr i.toInt.natAbs (Number.toFloat i).abs)
  | .float x => .ok (.float x.abs)
  | x => .error (.expression (.other ("MAGNITUDE of non-number " ++ x.shown)))

def magnitude : ScalarFunction :=
  ⟨1, some 1, fun args => (args.head?.getD (.one .null)).mapM sizeOf,
    fun fs => .ok (.size (fs.head?.getD (.const .null)))⟩

def lastArgument : ScalarFunction :=
  ⟨1, some 3, fun args => .ok (args.getLast?.getD (.one .null)),
    fun fs => .ok (fs.getLast?.getD (.const .null))⟩

end TableQuery.ScalarFunction

namespace TableQuery.Functions

/-- The functions that are there from the start. -/
def builtin : Functions :=
  register "IFNULL" (.coalesce 2 (some 2)) <|
    register "COALESCE" (.coalesce 1 none) <|
      register "IF" .choice []

end TableQuery.Functions
