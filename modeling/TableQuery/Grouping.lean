import TableQuery.Fault
import TableQuery.Operator.Basic

/-!
# Items of a grouped query

Every group key has to be among the selected items, and every other item has to aggregate. An item
denotes a key if it is the same expression, or the same column as far as the aliases in front tell,
or the same text but for blanks and the case of letters.
-/

namespace TableQuery

/-- Where the value of a selected item comes from. -/
inductive Slot where
  | key (index : Nat)
  | aggregate
  deriving DecidableEq, Repr, Inhabited

namespace Item

/-- Whether two written columns are the same, as far as the aliases in front tell. -/
def sameColumn (a b : String) : Bool :=
  let aliases := match Name.qualifier a, Name.qualifier b with
    | some x, some y => x == y
    | _, _ => true
  aliases && Name.unqualified a == Name.unqualified b

/-- Whether an item denotes a group key. -/
def denotes (item key : Item) : Bool :=
  item.expr == key.expr ||
    (match item.expr.asColumn?, key.expr.asColumn? with
      | some a, some b => sameColumn a b
      | _, _ => false) ||
    Text.sameLetters (Text.squeeze item.text) (Text.squeeze key.text)

/-- The first key that an item denotes. -/
def keyIndex? (keys : List Item) (item : Item) : Option Nat :=
  keys.findIdx? item.denotes

end Item

/-- Where the values of the selected items come from. -/
def slots (keys items : List Item) : Except Fault (List Slot) :=
  let used := items.filterMap (Item.keyIndex? keys)
  let missing := (keys.zipIdx.filter fun (_, i) => !used.contains i).map fun (k, _) => k.text
  let extra := (items.filter fun item =>
    (Item.keyIndex? keys item).isNone && !item.expr.containsAggregate).map Item.text
  if missing.isEmpty && extra.isEmpty then
    .ok (items.map fun item => (Item.keyIndex? keys item).elim .aggregate .key)
  else .error (.grouping missing extra)

end TableQuery
