import TableQuery.Table.Basic

/-!
# Rows as JSON

A table is shown as a list of objects, one for each row, with the columns as fields in the order of
their names. Numbers and truth values keep their form; every other cell is its text.
-/

namespace TableQuery

/-- A cell as a JSON value. -/
def Cell.toJson (type : ColumnType) : Cell → Json
  | .null => .null
  | .bool b => .bool b
  | .float x => if x.isFinite then .float x else .null
  | .int i =>
    if type.isInteger then .int i else .str (Cell.text type (.int i))
  | c => .str (c.text type)

namespace Table

/-- A row as an object. -/
def rowJson (t : Table) (row : Nat) : Json :=
  .obj <| t.columns.foldl
    (fun fields c =>
      Registry.insert c.name (Cell.toJson c.type (c.cells[row]?.getD .null)) fields) []

/-- All rows. -/
def toJson (t : Table) : Json :=
  .arr ((List.range t.height).map t.rowJson)

end Table

end TableQuery
