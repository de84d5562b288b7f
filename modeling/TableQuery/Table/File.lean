import TableQuery.Table.Basic

/-!
# Table files

A table file is a JSON object with a list of columns, each with its name, its type and its values;
null is a missing cell. A double is given by its bits, in hexadecimal digits, so that it is kept
exactly; a decimal is given by its text, a date by its days, and bytes by the text that they spell.
-/

namespace TableQuery

namespace ColumnType

/-- The numbers between parentheses, with a comma between them. -/
def ofParameters? (cs : List Char) : Option ColumnType :=
  let precision := cs.takeWhile Char.isDigit
  let scale := ((cs.dropWhile Char.isDigit).drop 1).takeWhile Char.isDigit
  some (.decimal (some (Number.ofDigits precision)) (Number.ofDigits scale))

/-- The type of a name. -/
def ofName? (name : String) : Option ColumnType :=
  match [null, bool, int32, int64, uint32, uint64, float32, float64, str, binary, date].find?
      fun t => t.name = name with
  | some t => some t
  | none =>
    if name.toList.take 8 = "decimal(".toList then ofParameters? (name.toList.drop 8) else none

end ColumnType

namespace Table

/-- The number of hexadecimal digits, the highest first. -/
def ofHex (cs : List Char) : Nat :=
  cs.foldl (fun n c =>
    16 * n + if c.isDigit then c.toNat - '0'.toNat else c.toNat - 'a'.toNat + 10) 0

/-- The double of sixteen hexadecimal digits. -/
def floatOfHex (digits : String) : Float :=
  Float.ofBits (.ofNat (ofHex digits.toList))

/-- A cell of a table file. -/
def cellOfFile? (type : ColumnType) (x : Json) : Option Cell :=
  match x, type with
  | .null, _ => some .null
  | .bool b, .bool => some (.bool b)
  | .int i, _ => some (.int i)
  | .str s, .float64 => some (.float (floatOfHex s))
  | .str s, .float32 => some (.float (Number.toSingle (floatOfHex s)))
  | .str s, .binary => some (.bytes s.toUTF8.toList)
  | .str s, .decimal _ scale => some (.int (Number.scaledOfText s scale))
  | .str s, .str => some (.str s)
  | _, _ => none

/-- A column of a table file. -/
def columnOfFile? (x : Json) : Option Column := do
  let .str name ← x.field? "name" | none
  let .str typeName ← x.field? "dtype" | none
  let .arr values ← x.field? "values" | none
  let type ← ColumnType.ofName? typeName
  return ⟨name, type, ← values.mapM (cellOfFile? type)⟩

/-- The table of a table file. -/
def ofFile? (x : Json) : Option Table := do
  let .arr columns ← x.field? "columns" | none
  return ⟨← columns.mapM columnOfFile?⟩

end Table

end TableQuery
