import TableQuery.Number.Scaled
import TableQuery.Sql.Lexer

/-!
# Expressions from tokens

From the loosest to the tightest: `OR`, `AND`, `NOT`, one comparison or test, sums, products,
signs, and the primary expressions. Operators of a chain associate to the left; a comparison does
not chain. Every reader takes the expression reader for the parts that stand in parentheses, and
that one descends one level of parentheses at a time, of which there are no more than tokens.
-/

namespace TableQuery.Sql

/-- What a reader finds at the front of a list of tokens, and the tokens behind it. -/
abbrev Reader (α : Type) := List Token → Except SyntaxError (α × List Token)

/-- The fault that something else was wanted in front of the given tokens. -/
def misfit (src : List Char) (wanted : Wanted) (ts : List Token) : SyntaxError :=
  .expected wanted <| ts.head?.map fun t =>
    ⟨String.ofList (Text.dropBytes t.start src), t.start⟩

/-- The literal that digits stand for: a 64-bit integer if there is no point and it fits, and the
nearest double otherwise. -/
def numberLiteral (digits : String) : Scalar :=
  let cs := digits.toList
  let places := (cs.dropWhile (· ≠ '.')).length - 1
  let n := Number.ofDigits cs
  if cs.contains '.' then .float (Float.ofScientific n true places)
  else
    match Number.toInt64? n with
    | some i => .int i
    | none => .float (Float.ofNat n)

/-- The literals that are words. -/
def wordLiteral? (word : String) : Option Scalar :=
  match Keyword.ofName? word with
  | some .null => some .null
  | some .true => some (.bool true)
  | some .false => some (.bool false)
  | _ => none

/-- A minus sign in front of an expression; in front of a number it belongs to the number. -/
def negated : Expr → Expr
  | .literal (.int i) => .literal (.int (-i))
  | .literal (.float x) => .literal (.float (-x))
  | e => .neg e

/-- The operators of sums. -/
def sumOp? (l : Lexeme) : Option BinaryOp :=
  match l with
  | .sign .plus => some .add
  | .sign .minus => some .sub
  | _ => none

/-- The operators of products. -/
def productOp? (l : Lexeme) : Option BinaryOp :=
  match l with
  | .sign .star => some .mul
  | .sign .slash => some .div
  | .sign .percent => some .mod
  | _ => none

/-- The operators that compare; equality has one sign or two. -/
def comparisonOp? (l : Lexeme) : Option BinaryOp :=
  match l with
  | .sign .equal => some .eq
  | .sign .doubleEqual => some .eq
  | .sign .notEqual => some .ne
  | .sign .less => some .lt
  | .sign .lessEqual => some .le
  | .sign .greater => some .gt
  | .sign .greaterEqual => some .ge
  | _ => none

def andOp? (l : Lexeme) : Option BinaryOp :=
  if l.isKeyword .and then some .and else none

def orOp? (l : Lexeme) : Option BinaryOp :=
  if l.isKeyword .or then some .or else none

/-- Operators and operands behind a first operand, at most `n` of them, from left to right. -/
def chainFrom (op? : Lexeme → Option BinaryOp) (operand : Reader Expr) :
    Nat → Expr → Reader Expr
  | 0, left, ts => .ok (left, ts)
  | _, left, [] => .ok (left, [])
  | n + 1, left, t :: ts =>
    match op? t.lexeme with
    | none => .ok (left, t :: ts)
    | some op => do
      let (right, rest) ← operand ts
      chainFrom op? operand n (.binary op left right) rest

/-- Operands with operators between them. -/
def chain (op? : Lexeme → Option BinaryOp) (operand : Reader Expr) : Reader Expr := fun ts => do
  let (left, rest) ← operand ts
  chainFrom op? operand rest.length left rest

section

variable (src : List Char)

/-- Expressions with commas between them and a closing parenthesis behind them, at most `n`. With
`trailing`, a comma may stand in front of the parenthesis. -/
def itemsFrom (wanted : Wanted) (trailing : Bool) (expr : Reader Expr) :
    Nat → Reader (List Expr)
  | 0, ts => .error (misfit src .expression ts)
  | n + 1, ts => do
    let (e, rest) ← expr ts
    match after? .comma rest, after? .closeParen rest with
    | some rest, _ =>
      match after? .closeParen rest, trailing with
      | some rest, true => return ([e], rest)
      | _, _ =>
        let (es, rest) ← itemsFrom wanted trailing expr n rest
        return (e :: es, rest)
    | none, some rest => return ([e], rest)
    | none, none => .error (misfit src wanted rest)

/-- The items of a list, none included, behind its opening parenthesis. -/
def items (wanted : Wanted) (trailing : Bool) (expr : Reader Expr) : Reader (List Expr) :=
  fun ts =>
    match after? .closeParen ts with
    | some rest => .ok ([], rest)
    | none => itemsFrom src wanted trailing expr ts.length ts

/-- The arguments of a function, behind the opening parenthesis. -/
def callBody (function : String) (expr : Reader Expr) : Reader Expr := fun ts =>
  if nextIsKeyword .distinct ts then .error (.distinctArgument function)
  else if nextIsKeyword .select ts then .error .subquery
  else
    match after? (.sign .star) ts with
    | some rest =>
      match after? .closeParen rest with
      | none => .error (misfit src .closingAfterStar rest)
      | some rest =>
        if function ≠ "COUNT" then .error (.starArgument function) else .ok (.countStar, rest)
    | none => do
      let (args, rest) ← items src .moreArguments false expr ts
      return (.call function args, rest)

/-- A name: a literal word, a function with its arguments, or a column. -/
def named (word : String) (expr : Reader Expr) (here rest : List Token) :
    Except SyntaxError (Expr × List Token) :=
  match wordLiteral? word with
  | some l => .ok (.literal l, rest)
  | none =>
    match after? .openParen rest with
    | some rest => callBody src (Text.upper word) expr rest
    | none =>
      if Keyword.isReserved word then .error (misfit src .expression here)
      else .ok (.column word, rest)

/-- A literal, a column, a call or an expression in parentheses. -/
def primary (expr : Reader Expr) : Reader Expr
  | [] => .error (misfit src .expression [])
  | t :: rest =>
    match t.lexeme with
    | .number digits => .ok (.literal (numberLiteral digits), rest)
    | .literal s => .ok (.literal (.str s), rest)
    | .name word => named src word expr (t :: rest) rest
    | .openParen =>
      if nextIsKeyword .select rest then .error .subquery
      else do
        let (e, rest) ← expr rest
        match after? .closeParen rest with
        | some rest => return (e, rest)
        | none => .error (misfit src .closing rest)
    | _ => .error (misfit src .expression (t :: rest))

/-- An operand with any number of signs in front. -/
def signed (operand : Reader Expr) : Reader Expr
  | [] => operand []
  | t :: rest =>
    match t.lexeme with
    | .sign .minus => do
      let (e, rest) ← signed operand rest
      return (negated e, rest)
    | .sign .plus => signed operand rest
    | _ => operand (t :: rest)

/-- The words `IN` or `NOT IN` at the front, with whether the test is negated. -/
def membership? (ts : List Token) : Option (Bool × List Token) :=
  match (afterKeyword? .not ts).bind (afterKeyword? .in) with
  | some rest => some (true, rest)
  | none => (afterKeyword? .in ts).map fun rest => (false, rest)

/-- A test for null behind the word `IS`. -/
def nullTest (operand : Expr) : Reader Expr := fun ts =>
  let negated := nextIsKeyword .not ts
  let rest := if negated then ts.drop 1 else ts
  match afterKeyword? .null rest with
  | some rest => .ok (.isNull operand negated, rest)
  | none => .error (misfit src (.keyword .null) rest)

/-- The list of a membership test. -/
def memberList (expr : Reader Expr) : Reader (List Expr) := fun ts =>
  match after? .openParen ts with
  | none => .error (misfit src .listAfterIn ts)
  | some rest =>
    if nextIsKeyword .select rest then .error .subquery
    else items src .moreInList true expr rest

/-- A sum, alone or with one comparison or test behind it; a second comparison is left over. -/
def comparison (expr sum : Reader Expr) : Reader Expr := fun ts => do
  let (left, rest) ← sum ts
  match afterKeyword? .is rest, membership? rest with
  | some rest, _ => nullTest src left rest
  | none, some (negated, rest) =>
    let (list, rest) ← memberList src expr rest
    return (.inList left list negated, rest)
  | none, none =>
    match rest with
    | [] => return (left, [])
    | t :: behind =>
      match comparisonOp? t.lexeme with
      | none => return (left, t :: behind)
      | some op =>
        let (right, rest) ← sum behind
        return (.binary op left right, rest)

/-- An operand with any number of `NOT` in front. -/
def negation (operand : Reader Expr) : Reader Expr
  | [] => operand []
  | t :: rest =>
    if t.isKeyword .not then do
      let (e, rest) ← negation operand rest
      return (.not e, rest)
    else operand (t :: rest)

/-- An expression with at most `n` parentheses inside one another. Parentheses begin anew at the
loosest level. -/
def exprWithin : Nat → Reader Expr
  | 0 => fun ts => .error (misfit src .expression ts)
  | n + 1 =>
    let expr := exprWithin n
    let sum := chain sumOp? (chain productOp? (signed (primary src expr)))
    chain orOp? (chain andOp? (negation (comparison src expr sum)))

/-- The expression at the front of a list of tokens. -/
def expression : Reader Expr := fun ts =>
  exprWithin src ts.length ts

end

end TableQuery.Sql

namespace TableQuery.Expr

open Sql

/-- The expression that a whole text spells. -/
def parse (text : String) : Except SyntaxError Expr := do
  let tokens ← tokenize text
  let (e, rest) ← expression text.toList tokens
  if rest.isEmpty then return e else .error (.trailingInput (Text.trim text))

end TableQuery.Expr
