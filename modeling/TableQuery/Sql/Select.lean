import TableQuery.Operator.Basic
import TableQuery.Sql.Comment

/-!
# Queries

A query is one `SELECT` with its clauses in fixed order: the items, the tables and how they are
joined, a condition, group keys, an order and a window of rows. Reading gives these parts; the
operators that carry the query out are then listed from the parts. Aggregates without group keys
make the whole table one group.
-/

namespace TableQuery

/-- The parts of a query. -/
structure Select where
  /-- The select items; none for a star. -/
  items : Option (List Item)
  base : TableRef
  joins : List (TableRef × JoinMode × List JoinKey)
  condition : Option String
  keys : Option (List Item)
  order : Option (List OrderItem)
  /-- Rows to skip and rows to keep. -/
  window : Option (UInt64 × UInt64)

namespace Select

/-- The keys by which a query groups, if it does. -/
def groupKeys (s : Select) : Option (List Item) :=
  match s.keys with
  | some keys => some keys
  | none =>
    if (s.items.getD []).any fun i => i.expr.containsAggregate then some [] else none

/-- The operators of a query, in the order in which they run. -/
def operators (s : Select) : List Operator :=
  [.load s.base] ++
    s.joins.map (fun (table, mode, on) => .join table mode on) ++
    (s.condition.map Operator.filter).toList ++
    (s.groupKeys.map fun keys => .group keys (s.items.getD [])).toList ++
    (s.items.map Operator.project).toList ++
    (s.order.map Operator.order).toList ++
    (s.window.map fun (offset, count) => .limit offset count).toList

end Select

namespace Sql

variable (src : List Char)

/-- What a reader gives for a clause that begins with a key word, if the clause is there. -/
def clause {α : Type} (k : Keyword) (body : Reader α) : Reader (Option α) := fun ts =>
  match afterKeyword? k ts with
  | none => .ok (none, ts)
  | some rest => do
    let (x, rest) ← body rest
    return (some x, rest)

/-- The tokens behind a key word that has to come next. -/
def require (k : Keyword) (ts : List Token) : Except SyntaxError (List Token) :=
  match afterKeyword? k ts with
  | some rest => .ok rest
  | none => .error (misfit src (.keyword k) ts)

/-- Elements with commas between them, at most `n + 1`. -/
def elementsFrom {α : Type} (element : Reader α) : Nat → Reader (List α)
  | 0, ts => do
    let (x, rest) ← element ts
    return ([x], rest)
  | n + 1, ts => do
    let (x, rest) ← element ts
    match after? .comma rest with
    | none => return ([x], rest)
    | some rest =>
      let (xs, rest) ← elementsFrom element n rest
      return (x :: xs, rest)

/-- Elements with commas between them. -/
def elements {α : Type} (element : Reader α) : Reader (List α) := fun ts =>
  elementsFrom element ts.length ts

/-- The text from the first of `ts` up to, and without, the first of `rest`. -/
def sourceText (ts rest : List Token) : String :=
  let taken := ts.take (ts.length - rest.length)
  match taken.head?, taken.getLast? with
  | some first, some last => String.ofList (Text.slice src first.start last.stop)
  | _, _ => ""

/-- An expression with its text. -/
def writtenExpression : Reader (Expr × String) := fun ts => do
  let (e, rest) ← expression src ts
  return ((e, sourceText src ts rest), rest)

/-- An alias, bare or behind the word `AS`, if there is one. -/
def label : Reader (Option String) := fun ts =>
  match afterKeyword? .as ts with
  | some rest =>
    match rest with
    | ⟨.name a, _, _⟩ :: behind => .ok (some a, behind)
    | ⟨.literal a, _, _⟩ :: behind => .ok (some a, behind)
    | _ => .error (misfit src .aliasAfterAs rest)
  | none =>
    match ts with
    | ⟨.name a, start, stop⟩ :: behind =>
      if Keyword.isReserved a then .ok (none, ⟨.name a, start, stop⟩ :: behind)
      else .ok (some a, behind)
    | _ => .ok (none, ts)

/-- A select item; a star gives none. -/
def selectItem : Reader (Option Item) := fun ts =>
  match after? (.sign .star) ts with
  | some rest => .ok (none, rest)
  | none => do
    let ((e, text), rest) ← writtenExpression src ts
    let (name, rest) ← label src rest
    return (some (.named e text name), rest)

/-- A table with its alias. -/
def tableRef : Reader TableRef
  | [] => .error (misfit src .tableName [])
  | t :: rest =>
    match t.lexeme with
    | .openParen => .error .subquery
    | .name source =>
      if Keyword.isReserved source then .error (misfit src .tableName (t :: rest))
      else do
        let (name, rest) ← label src rest
        return (⟨source, name.getD source⟩, rest)
    | _ => .error (misfit src .tableName (t :: rest))

/-- The words in front of a joined table, if another join follows. `OUTER` is read behind each of
`LEFT`, `RIGHT` and `INNER`. -/
def joinWords : Reader (Option JoinMode) := fun ts =>
  let worded (mode : JoinMode) (rest : List Token) := do
    let rest ← require src .join ((afterKeyword? .outer rest).getD rest)
    return (some mode, rest)
  match afterKeyword? .left ts, afterKeyword? .right ts, afterKeyword? .inner ts with
  | some rest, _, _ => worded .left rest
  | none, some rest, _ => worded .right rest
  | none, none, some rest => worded .inner rest
  | none, none, none =>
    match afterKeyword? .join ts with
    | some rest => .ok (some .inner, rest)
    | none =>
      if nextIsKeyword .full ts || nextIsKeyword .cross ts then .error .joinMode
      else .ok (none, ts)

/-- The columns that a join condition compares. -/
def joinKeys : Expr → Except SyntaxError (List JoinKey)
  | .binary .and l r => do return (← joinKeys l) ++ (← joinKeys r)
  | .binary .eq (.column a) (.column b) => .ok [⟨a, b⟩]
  | .binary .eq l r => .error (.joinOperands l r)
  | e => .error (.joinCondition e)

/-- The joins, at most `n`. -/
def joinsFrom : Nat → Reader (List (TableRef × JoinMode × List JoinKey))
  | 0, ts => .ok ([], ts)
  | n + 1, ts => do
    match ← joinWords src ts with
    | (none, rest) => return ([], rest)
    | (some mode, rest) =>
      let (table, rest) ← tableRef src rest
      let rest ← require src .on rest
      let (condition, rest) ← expression src rest
      let on ← joinKeys condition
      let (joins, rest) ← joinsFrom n rest
      return ((table, mode, on) :: joins, rest)

/-- A group key. -/
def groupKey : Reader Item := fun ts => do
  let ((e, text), rest) ← writtenExpression src ts
  return (.named e text none, rest)

/-- A sort key with its direction. -/
def orderItem : Reader OrderItem := fun ts => do
  let (item, rest) ← groupKey src ts
  match afterKeyword? .desc rest with
  | some rest => return (⟨item, false⟩, rest)
  | none => return (⟨item, true⟩, (afterKeyword? .asc rest).getD rest)

/-- A number of rows. -/
def rowCount : Reader UInt64 := fun ts =>
  match ts with
  | ⟨.number digits, _, _⟩ :: rest =>
    let cs := digits.toList
    if cs.contains '.' then .error (misfit src .count ts)
    else if Number.ofDigits cs < UInt64.size then .ok (.ofNat (Number.ofDigits cs), rest)
    else .error (.limitTooLarge digits)
  | _ => .error (misfit src .count ts)

/-- Rows to skip and to keep: the count alone, the count and an offset, or the offset, a comma and
the count. -/
def window : Reader (UInt64 × UInt64) := fun ts => do
  let (first, rest) ← rowCount src ts
  match after? .comma rest, afterKeyword? .offset rest with
  | some rest, _ =>
    let (count, rest) ← rowCount src rest
    return ((first, count), rest)
  | none, some rest =>
    let (offset, rest) ← rowCount src rest
    return ((offset, first), rest)
  | none, none => return ((0, first), rest)

/-- The select items; none for stars. -/
def selectList : Reader (Option (List Item)) := fun ts => do
  let (found, rest) ← elements (selectItem src) ts
  let items := found.filterMap id
  if found.all Option.isSome then return (some items, rest)
  else if items.isEmpty then return (none, rest)
  else .error .starAmongItems

/-- The parts of a query that fill a list of tokens. -/
def select (ts : List Token) : Except SyntaxError Select := do
  let rest ← require src .select ts
  if nextIsKeyword .distinct rest then .error .selectDistinct
  let (items, rest) ← selectList src rest
  let rest ← require src .from rest
  let (base, rest) ← tableRef src rest
  let (joins, rest) ← joinsFrom src rest.length rest
  let (condition, rest) ← clause .where (writtenExpression src) rest
  let (keys, rest) ← clause .group
    (fun ts => do elements (groupKey src) (← require src .by ts)) rest
  if nextIsKeyword .having rest then .error .having
  if keys.isSome && items.isNone then .error .starWithGroup
  let (order, rest) ← clause .order
    (fun ts => do elements (orderItem src) (← require src .by ts)) rest
  let (rows, rest) ← clause .limit (window src) rest
  let rest := rest.dropWhile fun t => t.lexeme = .semicolon
  if nextIsKeyword .union rest then .error .union
  if !rest.isEmpty then .error (misfit src .endOfQuery rest)
  return ⟨items, base, joins, condition.map (·.2), keys, order, rows⟩

end Sql

namespace Select

open Sql

/-- The query that a text spells. -/
def parse (text : String) : Except SyntaxError Select := do
  let clean := stripComments text
  let tokens ← tokenize clean
  if tokens.isEmpty then .error .emptyQuery
  select clean.toList tokens

end Select

end TableQuery
