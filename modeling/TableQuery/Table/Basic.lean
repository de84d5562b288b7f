import TableQuery.Fault
import TableQuery.Table.Cast

/-!
# Tables

A table is a list of named columns of equal length. A table without columns has no rows. Rows are
told apart by their place.
-/

namespace TableQuery

structure Column where
  name : String
  type : ColumnType
  cells : List Cell
  deriving Inhabited

namespace Column

/-- The cells as values to compute with. -/
def scalars (c : Column) : List Scalar :=
  c.cells.map (Cell.scalar c.type)

/-- The cells in the given rows; where there is no row, the cell is missing. -/
def take (rows : List (Option Nat)) (c : Column) : Column :=
  let cells := c.cells.toArray
  { c with cells := rows.map fun row => (row.bind fun i => cells[i]?).getD .null }

/-- The column in another type. -/
def cast (target : ColumnType) (c : Column) : Column :=
  ⟨c.name, target, c.cells.map (Cell.cast c.type target)⟩

/-- The narrowest type in which values of the given kinds stand together. Integers give way to
doubles, and every other mixture is text. -/
def typeOfKinds (kinds : List Scalar.Kind) : ColumnType :=
  let has (k : Scalar.Kind) : Bool := kinds.contains k
  match has .bool, has .int, has .float, has .str with
  | false, false, false, false => .null
  | true, false, false, false => .bool
  | false, true, false, false => .int64
  | false, _, true, false => .float64
  | _, _, _, _ => .str

/-- A value as a cell of the type that its column got. -/
def cellOf (type : ColumnType) (x : Scalar) : Cell :=
  match x, type with
  | .null, _ => .null
  | x, .float64 => (x.toFloat?).elim .null .float
  | x, .str => .str x.text
  | x, _ => (Cell.ofScalar x).2

/-- The column of computed values. -/
def ofScalars (name : String) (xs : List Scalar) : Column :=
  let type := typeOfKinds (xs.map Scalar.kind)
  ⟨name, type, xs.map (cellOf type)⟩

end Column

structure Table where
  columns : List Column
  deriving Inhabited

/-- The names and types of columns. -/
abbrev Schema := List (String × ColumnType)

namespace Table

/-- The table without columns. -/
def empty : Table :=
  ⟨[]⟩

/-- The number of rows. -/
def height (t : Table) : Nat :=
  match t.columns with
  | [] => 0
  | c :: _ => c.cells.length

def names (t : Table) : List String :=
  t.columns.map Column.name

def schema (t : Table) : Schema :=
  t.columns.map fun c => (c.name, c.type)

/-- The table of the given columns without rows. -/
def ofSchema (s : Schema) : Table :=
  ⟨s.map fun (name, type) => ⟨name, type, []⟩⟩

/-- The column of a name. -/
def column (t : Table) (name : String) : Except Fault Column :=
  match t.columns.find? (·.name = name) with
  | some c => .ok c
  | none => .error (.columns (.missing name))

/-- The given rows. -/
def take (rows : List Nat) (t : Table) : Table :=
  ⟨t.columns.map (Column.take (rows.map some))⟩

/-- The rows that a mask keeps. -/
def filter (mask : List Bool) (t : Table) : Table :=
  ⟨t.columns.map fun c =>
    { c with cells := ((c.cells.zip mask).filter Prod.snd).map Prod.fst }⟩

/-- So many rows behind so many others. -/
def window (offset count : Nat) (t : Table) : Table :=
  ⟨t.columns.map fun c => { c with cells := (c.cells.drop offset).take count }⟩

/-- The table with a column put in place of the one of its name, or at the end. -/
def put (c : Column) (t : Table) : Table :=
  if t.names.contains c.name then
    ⟨t.columns.map fun d => if d.name = c.name then c else d⟩
  else ⟨t.columns ++ [c]⟩

/-- The columns of the given names, in their order. -/
def select (names : List String) (t : Table) : Except Fault Table := do
  return ⟨← names.mapM t.column⟩

/-- The table with its columns renamed. -/
def rename (f : String → String) (t : Table) : Table :=
  ⟨t.columns.map fun c => { c with name := f c.name }⟩

/-- A fault unless the names are pairwise different. -/
def distinct (names : List String) : Except Fault Unit :=
  match names with
  | [] => .ok ()
  | name :: rest =>
    if rest.contains name then .error (.columns (.duplicate name)) else distinct rest

end Table

end TableQuery
