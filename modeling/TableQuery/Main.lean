import TableQuery.CommandLine
import TableQuery.Json.Reader
import TableQuery.Table.File

/-!
# The program

Reads the arguments, the table files and the lines of the input, and writes what the command line
answers.
-/

namespace TableQuery.Main

/-- The name under which the program explains itself. -/
def program : String := "table-query"

/-- The table in a file, if it holds one. -/
def readFile (path : String) : IO (Option Table) := do
  try
    let text ← IO.FS.readFile path
    return (Json.read? text).bind Table.ofFile?
  catch _ => return none

/-- The table files below a directory, with their paths. -/
partial def filesBelow (path : String) : IO Files := do
  try
    let mut found : Files := []
    for entry in ← (← IO.FS.realPath path).readDir do
      let inner := Path.extend path entry.fileName
      if ← entry.path.isDir then found := found ++ (← filesBelow inner)
      else found := found ++ [(inner, ← readFile inner)]
    return found
  catch _ => return []

/-- The table files that the options speak of. -/
def filesOf (o : CommandLine.Options) : IO Files := do
  let named ← o.tables.mapM fun (_, path) => do return (path, ← readFile path)
  match o.root with
  | some root => return named ++ (← filesBelow root)
  | none => return named

/-- Write an outcome. -/
def finish (o : CommandLine.Outcome) : IO UInt32 := do
  IO.print o.output
  IO.eprint o.errors
  return .ofNat o.exit

/-- Answer one line of the input after the other. -/
partial def converse (json : Bool) (s : Session) : IO UInt32 := do
  IO.print CommandLine.prompt
  (← IO.getStdout).flush
  let line ← (← IO.getStdin).getLine
  if line.isEmpty then return 0
  let r := CommandLine.reply json line s
  IO.print r.output
  IO.eprint r.errors
  match r.next with
  | none => return 0
  | some s => converse json s

end TableQuery.Main

open TableQuery in
/-- Run the program. -/
def main (arguments : List String) : IO UInt32 := do
  match CommandLine.request Main.program arguments with
  | .error outcome => Main.finish outcome
  | .ok o =>
    match CommandLine.openSession o (← Main.filesOf o) with
    | .error r => Main.finish r.outcome
    | .ok s =>
      match o.query with
      | some q => Main.finish (CommandLine.oneQuery o.json q s)
      | none => Main.converse o.json s
