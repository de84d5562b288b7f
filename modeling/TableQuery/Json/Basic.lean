import TableQuery.Number.Layout
import TableQuery.Registry

/-!
# JSON values and their written forms

Objects keep their fields in order. The compact form has no blanks; the indented form puts every
item on a line of its own. Whole numbers and doubles are told apart by their written form, so a
value is determined by its text.
-/

namespace TableQuery

inductive Json where
  | null
  | bool (value : Bool)
  | int (value : Int)
  | float (value : Float)
  | str (value : String)
  | arr (items : List Json)
  | obj (fields : List (String × Json))
  deriving BEq, Inhabited

namespace Json

/-- A hexadecimal number of four digits. -/
def hex4 (n : Nat) : List Char :=
  let digits := Nat.toDigits 16 n
  List.replicate (4 - digits.length) '0' ++ digits

/-- A character inside a string: quotes, backslashes and control characters are escaped. -/
def escapeChar (c : Char) : List Char :=
  if c = '"' then ['\\', '"']
  else if c = '\\' then ['\\', '\\']
  else if c = '\n' then ['\\', 'n']
  else if c = '\r' then ['\\', 'r']
  else if c = '\t' then ['\\', 't']
  else if c = '\x08' then ['\\', 'b']
  else if c = '\x0c' then ['\\', 'f']
  else if c.toNat < 32 then '\\' :: 'u' :: hex4 c.toNat
  else [c]

/-- A string in its quotes. -/
def writeString (s : String) : List Char :=
  '"' :: s.toList.flatMap escapeChar ++ ['"']

/-- A whole number. -/
def writeInt (i : Int) : List Char :=
  match i with
  | .ofNat n => Nat.toDigits 10 n
  | .negSucc n => '-' :: Nat.toDigits 10 (n + 1)

/-- A double; what is no number is written as null. -/
def writeFloat (x : Float) : List Char :=
  if x.isFinite then (Number.Layout.json.write x).toList else "null".toList

/-- Items with a separator between each two. -/
def separated (between : List Char) : List (List Char) → List Char
  | [] => []
  | [x] => x
  | x :: y :: rest => x ++ between ++ separated between (y :: rest)

mutual

/-- The form without blanks. -/
def writeCompact : Json → List Char
  | .null => "null".toList
  | .bool b => if b then "true".toList else "false".toList
  | .int i => writeInt i
  | .float x => writeFloat x
  | .str s => writeString s
  | .arr items => '[' :: separated [','] (compactItems items) ++ [']']
  | .obj fields => '\x7b' :: separated [','] (compactFields fields) ++ ['\x7d']

def compactItems : List Json → List (List Char)
  | [] => []
  | x :: rest => writeCompact x :: compactItems rest

def compactFields : List (String × Json) → List (List Char)
  | [] => []
  | (key, x) :: rest => (writeString key ++ ':' :: writeCompact x) :: compactFields rest

end

/-- A line break followed by two blanks for each level. -/
def newLine (level : Nat) : List Char :=
  '\n' :: List.replicate (2 * level) ' '

/-- Items on lines of their own, between an opening and a closing bracket. -/
def block (level : Nat) (first last : Char) (items : List (List Char)) : List Char :=
  if items.isEmpty then [first, last]
  else
    first :: newLine (level + 1) ++ separated (',' :: newLine (level + 1)) items ++
      newLine level ++ [last]

mutual

/-- The form with one item per line. -/
def writeIndented (level : Nat) : Json → List Char
  | .arr items => block level '[' ']' (indentedItems (level + 1) items)
  | .obj fields => block level '\x7b' '\x7d' (indentedFields (level + 1) fields)
  | .null => "null".toList
  | .bool b => if b then "true".toList else "false".toList
  | .int i => writeInt i
  | .float x => writeFloat x
  | .str s => writeString s

def indentedItems (level : Nat) : List Json → List (List Char)
  | [] => []
  | x :: rest => writeIndented level x :: indentedItems level rest

def indentedFields (level : Nat) : List (String × Json) → List (List Char)
  | [] => []
  | (key, x) :: rest =>
    (writeString key ++ ':' :: ' ' :: writeIndented level x) :: indentedFields level rest

end

/-- The form without blanks, as text. -/
def compact (x : Json) : String :=
  String.ofList x.writeCompact

/-- The form with one item per line, as text. -/
def indented (x : Json) : String :=
  String.ofList (x.writeIndented 0)

mutual

/-- The value with the keys of every object in increasing order. -/
def sorted : Json → Json
  | .arr items => .arr (sortedItems items)
  | .obj fields => .obj (sortedFields [] fields)
  | .null => .null
  | .bool b => .bool b
  | .int i => .int i
  | .float x => .float x
  | .str s => .str s

def sortedItems : List Json → List Json
  | [] => []
  | x :: rest => sorted x :: sortedItems rest

def sortedFields (done : List (String × Json)) : List (String × Json) → List (String × Json)
  | [] => done
  | (key, x) :: rest => sortedFields (Registry.insert key (sorted x) done) rest

end

mutual

/-- How many brackets stand inside one another, at most. -/
def depth : Json → Nat
  | .arr items => depthOfItems items + 1
  | .obj fields => depthOfFields fields + 1
  | .null => 0
  | .bool _ => 0
  | .int _ => 0
  | .float _ => 0
  | .str _ => 0

def depthOfItems : List Json → Nat
  | [] => 0
  | x :: rest => max (depth x) (depthOfItems rest)

def depthOfFields : List (String × Json) → Nat
  | [] => 0
  | (_, x) :: rest => max (depth x) (depthOfFields rest)

end

/-- The value of the first field with the given key. -/
def field? (key : String) : Json → Option Json
  | .obj fields => fields.lookup key
  | _ => none

end Json

end TableQuery
