import TableQuery.Engine.Basic
import TableQuery.Function.Store
import TableQuery.Session.Loader

/-!
# Sessions

A session holds what queries refer to: the registered tables, the settings, the loaders that stand
in for missing tables, the engine in use, and a handle on the functions that it knows. Operations on
a session may fail; what they have changed before they fail stays changed.
-/

namespace TableQuery

structure Session where
  tables : Registry Relation
  config : Registry Json
  loaders : List Loader
  engine : Engine
  functions : Handle
  deriving Inhabited

/-- An operation on a session. -/
abbrev SessionM := ExceptT Fault (StateM Session)

namespace Session

/-- The session without tables, settings and loaders, on the eager engine, with the functions that
come first in the store. -/
def new : Session :=
  ⟨[], [], [], .eager, 0⟩

/-- The setting that says whether an alias takes the place of the table's own name. -/
def aliasReplaceKey : String := "load.alias_replace"

/-- Insert at a place, or at the end if the list is shorter. -/
def insertAt {α : Type} (position : Option Nat) (x : α) (xs : List α) : List α :=
  let n := (position.getD xs.length).min xs.length
  xs.take n ++ x :: xs.drop n

/-- Register a table. What is registered under the name already stays, unless it is to be
replaced. -/
def addTable (name : String) (r : Relation) (replace : Bool) (s : Session) : Session :=
  if s.tables.has name && !replace then s else { s with tables := s.tables.insert name r }

/-- Register several tables, each in the place of what has its name. -/
def addTables (tables : List (String × Relation)) (s : Session) : Session :=
  tables.foldl (fun s (name, r) => s.addTable name r true) s

/-- Give up the table of a name. -/
def removeTable (name : String) (s : Session) : Session :=
  { s with tables := s.tables.erase name }

/-- The table that the first loader gives; loaders that decline or fail are passed over. -/
def fromLoaders (name : String) : List Loader → Except Fault Relation
  | [] => .error (.noTable name)
  | l :: ls =>
    match l name with
    | .ok (some r) => .ok r
    | _ => fromLoaders name ls

/-- The table of a name: the registered one, unless the name belongs to an outside source, or one
from the loaders. -/
def resolveTable (name : String) (s : Session) : Except Fault Relation :=
  match if Name.isExternal name then none else s.tables.get? name with
  | some r => .ok r
  | none => fromLoaders name s.loaders

/-- A setting, or the given default. -/
def getConfig (key : String) (default? : Option Json) (s : Session) : Except Fault Json :=
  match s.config.get? key, default? with
  | some x, _ => .ok x
  | none, some x => .ok x
  | none, none => .error (.noSetting key)

/-- A setting that is a truth value. -/
def configBool (key : String) (default : Bool) (s : Session) : Except Fault Bool :=
  match s.config.get? key with
  | none => .ok default
  | some (.bool b) => .ok b
  | some x => .error (.badSetting key (.notBoolean x))

/-- A setting that is a text; null is none. -/
def configText (key : String) (s : Session) : Except Fault (Option String) :=
  match s.config.get? key with
  | none => .ok none
  | some .null => .ok none
  | some (.str t) => .ok (some t)
  | some x => .error (.badSetting key (.notString x))

/-- Make a setting; the fields of objects are kept in the order of their names. -/
def setConfig (key : String) (x : Json) (s : Session) : Session :=
  { s with config := s.config.insert key x.sorted }

/-- Make several settings, each in the place of what has its key. -/
def mergeConfig (settings : List (String × Json)) (s : Session) : Session :=
  settings.foldl (fun s (key, x) => s.setConfig key x) s

/-- Insert into the list that is the setting of a key. -/
def appendConfig (key : String) (x : Json) (position : Option Nat) (clear : Bool)
    (s : Session) : Except Fault Session :=
  match (s.config.get? key).getD (.arr []) with
  | .arr items => .ok (s.setConfig key (.arr (insertAt position x (if clear then [] else items))))
  | _ => .error (.badSetting key .notList)

def addLoader (l : Loader) (position : Option Nat) (s : Session) : Session :=
  { s with loaders := insertAt position l s.loaders }

def clearLoaders (s : Session) : Session :=
  { s with loaders := [] }

/-- Add a loader for the directory that a setting names, if it names one. -/
def registerSourceRoot (key : String) (fs : Files) : SessionM Unit := do
  let s ← get
  match ← s.configText key with
  | none => return ()
  | some root => set (s.addLoader (.directory root fs) none)

/-- Use an engine, and the directory that is set for it. -/
def selectEngine (e : Engine) (fs : Files) : SessionM Unit := do
  modify fun s => { s with engine := e }
  registerSourceRoot e.sourceRootKey fs

/-- The table of a name. With an alias it is registered under the alias too, which takes the place
of the name unless settings say otherwise. -/
def loadTable (source : String) (label : Option String) (replaceAlias : Option Bool) :
    SessionM Relation := do
  let r ← (← get).resolveTable source
  match label.filter (· ≠ source) with
  | none => return r
  | some a =>
    modify (addTable a r true)
    let replace ← match replaceAlias with
      | some b => pure b
      | none => (← get).configBool aliasReplaceKey true
    if replace then modify (removeTable source)
    return r

/-- A double as shown to a reader. -/
def shownNumber (x : Float) : String :=
  "Number(" ++ Number.Layout.json.write x ++ ")"

mutual

/-- A value of a setting as shown to a reader. -/
def shownJson : Json → String
  | .null => "Null"
  | .bool b => if b then "Bool(true)" else "Bool(false)"
  | .int i => "Number(" ++ toString i ++ ")"
  | .float x => shownNumber x
  | .str s => "String(" ++ Text.quoted s ++ ")"
  | .arr items => "Array [" ++ ", ".intercalate (shownItems items) ++ "]"
  | .obj fields => "Object \x7b" ++ ", ".intercalate (shownFields fields) ++ "\x7d"

def shownItems : List Json → List String
  | [] => []
  | x :: xs => shownJson x :: shownItems xs

def shownFields : List (String × Json) → List String
  | [] => []
  | (key, x) :: rest => (Text.quoted key ++ ": " ++ shownJson x) :: shownFields rest

end

/-- A session as shown to a reader. -/
def shown (s : Session) : String :=
  "Context \x7b tables: " ++ Text.quotedList s.tables.names ++ ", config: \x7b" ++
    ", ".intercalate (shownFields s.config) ++ "\x7d, loaders: " ++ toString s.loaders.length ++
    ", engine: " ++ Text.quoted s.engine.name ++ " \x7d"

end Session

end TableQuery
