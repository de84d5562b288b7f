import TableQuery.Plan

/-!
# Loaders

A loader is asked for tables that are not registered. It gives a table, or declines, or fails. The
loader of a directory takes a dotted name for a path of nested directories, and declines names whose
parts could lead elsewhere.
-/

namespace TableQuery

abbrev Loader := String → Except Fault (Option Relation)

/-- The files that hold tables, by their paths. A file may hold something else. -/
abbrev Files := List (String × Option Table)

namespace Path

/-- The parts of a text between the occurrences of a character. -/
def splitAt (mark : Char) : List Char → List (List Char)
  | [] => [[]]
  | c :: cs =>
    if c = mark then [] :: splitAt mark cs
    else
      match splitAt mark cs with
      | [] => [[c]]
      | part :: parts => (c :: part) :: parts

/-- A path extended by one component. -/
def extend (path component : String) : String :=
  if path.isEmpty || path.toList.getLast? == some '/' then path ++ component
  else path ++ "/" ++ component

/-- The components of a path without those that lead nowhere. -/
def components (path : String) : List String :=
  ((splitAt '/' path.toList).map String.ofList).foldl
    (fun done part =>
      if part = "" || part = "." then done
      else if part = ".." then done.dropLast
      else done ++ [part]) []

/-- Whether a part of a dotted name can be a component of a path. -/
def isComponent (part : String) : Bool :=
  part ≠ "" && part ≠ ".." && !part.toList.contains '/' && !part.toList.contains '\\'

/-- The path of the table of a dotted name below a directory. -/
def ofName? (root name : String) : Option String :=
  let bare := match name.toList with
    | '@' :: cs => cs
    | cs => cs
  let parts := (splitAt '.' bare).map String.ofList
  if parts.all isComponent then
    match parts.getLast? with
    | some last => some (extend (parts.dropLast.foldl extend root) (last ++ ".parquet"))
    | none => none
  else none

end Path

namespace Files

/-- The content of the file at a path, if there is one. -/
def find? (path : String) (fs : Files) : Option (Option Table) :=
  (List.find? (fun (p, _) => Path.components p = Path.components path) fs).map Prod.snd

/-- The table in the file at a path. -/
def read (path : String) (fs : Files) : Except Fault Table :=
  match fs.find? path with
  | some (some t) => .ok t
  | _ => .error (.columns .unreadable)

end Files

namespace Loader

/-- The loader of the table files below a directory. -/
def directory (root : String) (fs : Files) : Loader := fun name =>
  match Path.ofName? root name with
  | none => .ok none
  | some path =>
    match fs.find? path with
    | none => .ok none
    | some _ => do return some (.frame (← fs.read path))

/-- The loader that knows some tables by their names. -/
def ofTables (tables : Registry Relation) : Loader := fun name =>
  .ok (tables.get? name)

/-- The loader that cannot be reached. -/
def offline : Loader := fun _ =>
  .error (.execution (.other "offline"))

end Loader

end TableQuery
