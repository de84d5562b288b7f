/-!
# Names of tables and columns

A column may be written with the alias of its table in front, `alias.column`; the alias ends at the
last dot. A written name resolves against the columns of a table: the whole name first, then the
part after the last dot. Names that begin with `@` belong to sources outside the registry.
-/

namespace TableQuery.Name

/-- Whether a name belongs to an outside source. -/
def isExternal (name : String) : Bool :=
  name.toList.head? == some '@'

/-- The parts before and after the last dot. -/
def splitLastDot? (cs : List Char) : Option (List Char × List Char) :=
  match cs.reverse.dropWhile (· != '.') with
  | [] => none
  | _ :: before => some (before.reverse, (cs.reverse.takeWhile (· != '.')).reverse)

/-- The alias, if there is one, and the column. A name that begins with its only dot has no
alias. -/
def splitQualified (name : String) : Option String × String :=
  match splitLastDot? name.toList with
  | some (q, c) => if q.isEmpty then (none, name) else (some (String.ofList q), String.ofList c)
  | none => (none, name)

/-- The alias in front of a written column. -/
def qualifier (name : String) : Option String :=
  (splitQualified name).1

/-- A written column without its alias. -/
def unqualified (name : String) : String :=
  (splitQualified name).2

/-- A column with an alias in front. -/
def qualify (label column : String) : String :=
  label ++ "." ++ column

/-- The column of a table that a written name denotes. -/
def resolve? (name : String) (columns : List String) : Option String :=
  if columns.contains name then some name
  else
    let bare := unqualified name
    if bare != name && columns.contains bare then some bare else none

/-- What a name resolves to is a column. -/
theorem mem_of_resolve? {name c : String} {columns : List String}
    (h : resolve? name columns = some c) : c ∈ columns := by
  simp only [resolve?] at h
  split at h
  · next hc => cases h; simpa using hc
  · split at h
    · next hc => cases h; simp only [Bool.and_eq_true] at hc; simpa using hc.2
    · cases h

/-- A column resolves to itself. -/
theorem resolve?_of_mem {c : String} {columns : List String} (h : c ∈ columns) :
    resolve? c columns = some c := by
  simp [resolve?, h]

end TableQuery.Name
