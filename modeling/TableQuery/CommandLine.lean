import TableQuery.Function.Builtin
import TableQuery.Session.Pipeline
import TableQuery.Table.Rows

/-!
# The command line

Arguments name an engine, tables and a query. Without a query the program answers one query per
line of its input, and a fault ends a query but not the dialogue. What is written to the two output
streams, and the exit code, are computed here from the arguments, the files and the input.
-/

namespace TableQuery.CommandLine

structure Options where
  engine : String
  root : Option String
  tables : List (String × String)
  json : Bool
  query : Option String
  deriving Inhabited

/-- The options without arguments. -/
def Options.initial : Options :=
  ⟨"local", none, [], false, none⟩

/-- What is wrong with the arguments. -/
inductive ArgumentFault where
  | noValue (flag : String)
  | noEquals (entry : String)
  | unknown (argument : String)
  deriving DecidableEq, Repr, Inhabited

def ArgumentFault.message : ArgumentFault → String
  | .noValue flag => s!"{flag} requires a value"
  | .noEquals entry => s!"--table expects <name>=<path>, got '{entry}'"
  | .unknown argument => s!"unknown argument '{argument}'"

/-- What the arguments ask for. -/
inductive Request where
  | help
  | work (options : Options)
  deriving Inhabited

/-- A table name and a path with an equal sign between them. -/
def tableEntry? (entry : String) : Option (String × String) :=
  match entry.toList.dropWhile (· ≠ '=') with
  | [] => none
  | _ :: path =>
    some (Text.trim (String.ofList (entry.toList.takeWhile (· ≠ '='))),
      Text.trim (String.ofList path))

/-- Read the arguments in order; the request for help ends the reading. -/
def readArguments (o : Options) : List String → Except ArgumentFault Request
  | [] => .ok (.work o)
  | "--engine" :: rest =>
    match rest with
    | [] => .error (.noValue "--engine")
    | x :: rest => readArguments { o with engine := x } rest
  | "--root" :: rest =>
    match rest with
    | [] => .error (.noValue "--root")
    | x :: rest => readArguments { o with root := some x } rest
  | "--table" :: rest =>
    match rest with
    | [] => .error (.noValue "--table")
    | x :: rest =>
      match tableEntry? x with
      | none => .error (.noEquals x)
      | some entry => readArguments { o with tables := o.tables ++ [entry] } rest
  | "--json" :: rest => readArguments { o with json := true } rest
  | "-q" :: rest =>
    match rest with
    | [] => .error (.noValue "--query")
    | x :: rest => readArguments { o with query := some x } rest
  | "--query" :: rest =>
    match rest with
    | [] => .error (.noValue "--query")
    | x :: rest => readArguments { o with query := some x } rest
  | "-h" :: _ => .ok .help
  | "--help" :: _ => .ok .help
  | x :: _ => .error (.unknown x)

/-- How the program is used. -/
def usage (program : String) : String :=
  "Usage:\n  " ++ program ++
  " [--engine local|lazy] [--root <dir>] [--table <name>=<file.parquet>]..." ++
  " [--json] -q \"<SQL>\"\n  " ++ program ++ " [flags]    # reads one query per line from stdin\n\n" ++
  "Flags:\n" ++
  "  --engine <name>          Backend engine: local (eager, default) or lazy (deferred plan)\n" ++
  "  --root <dir>             Directory of parquet files resolved as @db.schema.table\n" ++
  "  --table <name>=<path>    Register a parquet file under <name> (repeatable)\n" ++
  "  --json                   Print result rows as JSON instead of a table\n" ++
  "  -q, --query <SQL>        Run a one-shot query\n" ++
  "  -h, --help               Show this help\n\n" ++
  "Interactive:\n" ++
  "  quit | exit              leave\n" ++
  "  tables                   list registered tables\n"

/-- What the program leaves behind. -/
structure Outcome where
  exit : Nat
  output : String
  errors : String
  deriving DecidableEq, Repr, Inhabited

/-- What keeps the program from its work. -/
inductive Refusal where
  | engine (name : String)
  | unreadable (path : String) (cause : Fault)
  | query (cause : Failure)
  deriving Inhabited

namespace Refusal

def message : Refusal → String
  | .engine name => s!"unknown engine '{name}' (expected local or lazy)"
  | .unreadable path _ => s!"reading {path}"
  | .query f => f.message

/-- The fault behind what is wrong, where the message speaks of something larger. -/
def cause? : Refusal → Option Fault
  | .engine _ => none
  | .unreadable _ f => some f
  | .query f => f.stage.map fun _ => f.fault

/-- Lines moved to the right by four blanks. -/
def indented (text : String) : String :=
  String.ofList ("    ".toList ++ text.toList.flatMap fun c =>
    if c = '\n' then "\n    ".toList else [c])

/-- What the program writes before it gives up. -/
def report (r : Refusal) : String :=
  "Error: " ++ r.message ++ "\n" ++
    match r.cause? with
    | none => ""
    | some f => "\nCaused by:\n" ++ indented f.message ++ "\n"

def outcome (r : Refusal) : Outcome :=
  ⟨1, "", r.report⟩

end Refusal

/-- Register the table files of the options. -/
def readTables (fs : Files) (s : Session) : List (String × String) → Except Refusal Session
  | [] => .ok s
  | (name, path) :: rest =>
    match fs.read path with
    | .ok t => readTables fs (s.addTable name (.frame t) true) rest
    | .error f => .error (.unreadable path f)

/-- The session that the options describe. -/
def openSession (o : Options) (fs : Files) : Except Refusal Session := do
  let some engine := Engine.ofName? o.engine | throw (.engine o.engine)
  let s := match o.root with
    | some root => Session.new.setConfig engine.sourceRootKey (.str root)
    | none => Session.new
  let s ← readTables fs s o.tables
  match (Session.selectEngine engine fs).run.run s with
  | (.ok _, s) => return s
  | (.error f, _) => throw (.query (.plain f))

/-- The rows of a table in lines, the cells with a bar between them. -/
def plainText (t : Table) : String :=
  let line (cells : List String) : String := " | ".intercalate cells ++ "\n"
  let row (i : Nat) : String :=
    line (t.columns.map fun c => (c.cells[i]?.getD .null).text c.type)
  line t.names ++ String.join ((List.range t.height).map row)

/-- The result of a query as it is written. -/
def written (json : Bool) (t : Table) : String :=
  if json then t.toJson.indented ++ "\n" else plainText t

/-- The answer to one line of a dialogue, and the session with which it goes on. -/
structure Reply where
  output : String
  errors : String
  next : Option Session
  deriving Inhabited

/-- Answer a query. -/
def answer (query : String) (s : Session) : Except Failure Table × Session :=
  (runCollect Functions.builtin query).run.run s

/-- Answer one line of a dialogue. -/
def reply (json : Bool) (line : String) (s : Session) : Reply :=
  let line := Text.trim line
  if line.isEmpty then ⟨"", "", some s⟩
  else if Text.spells line "EXIT" || Text.spells line "QUIT" then ⟨"", "", none⟩
  else if Text.spells line "TABLES" then
    ⟨String.join (s.tables.names.map (· ++ "\n")), "", some s⟩
  else
    match answer line s with
    | (.ok t, s) => ⟨written json t, "", some s⟩
    | (.error f, s) => ⟨"", "error: " ++ f.message ++ "\n", some s⟩

/-- The mark that asks for the next line. -/
def prompt : String := "> "

/-- A dialogue with the given lines. -/
def dialogue (json : Bool) (s : Session) : List String → Outcome
  | [] => ⟨0, prompt, ""⟩
  | line :: lines =>
    let r := reply json line s
    match r.next with
    | none => ⟨0, prompt ++ r.output, r.errors⟩
    | some s =>
      let rest := dialogue json s lines
      ⟨rest.exit, prompt ++ r.output ++ rest.output, r.errors ++ rest.errors⟩

/-- The lines of an input; a line break at its end begins no further line. -/
def linesOf (input : String) : List String :=
  let lines := (Path.splitAt '\n' input.toList).map String.ofList
  if lines.getLast? = some "" then lines.dropLast else lines

/-- Answer the query of the options. -/
def oneQuery (json : Bool) (query : String) (s : Session) : Outcome :=
  match answer query s with
  | (.ok t, _) => ⟨0, written json t, ""⟩
  | (.error f, _) => (Refusal.query f).outcome

/-- What the arguments ask for, or what is to be written instead. -/
def request (program : String) (arguments : List String) : Except Outcome Options :=
  match readArguments .initial arguments with
  | .error e => .error ⟨2, usage program, e.message ++ "\n"⟩
  | .ok .help => .error ⟨0, usage program, ""⟩
  | .ok (.work o) => .ok o

/-- A run of the program. -/
def run (program : String) (arguments : List String) (fs : Files) (input : String) : Outcome :=
  match request program arguments with
  | .error outcome => outcome
  | .ok o =>
    match openSession o fs with
    | .error r => r.outcome
    | .ok s =>
      match o.query with
      | some q => oneQuery o.json q s
      | none => dialogue o.json s (linesOf input)

end TableQuery.CommandLine
