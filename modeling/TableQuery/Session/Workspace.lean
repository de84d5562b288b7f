import TableQuery.Function.Builtin
import TableQuery.Function.Store
import TableQuery.Session.Pipeline

/-!
# Workspaces

A workspace has any number of open sessions, one of which is in use, and a store for the functions
that they know. A session can be copied: the copy has tables, settings, loaders and an engine of its
own, and a handle on the same functions. The functions known at one time can be copied too, behind a
new handle.
-/

namespace TableQuery

structure Workspace where
  store : Store
  /-- The sessions opened before the one in use, the first one first. -/
  earlier : List Session
  current : Session
  /-- The sessions opened after the one in use. -/
  later : List Session
  /-- The handles of the snapshots, the first one first. -/
  snapshotHandles : List Handle
  deriving Inhabited

namespace Workspace

/-- The workspace of one session, which knows the given functions. -/
def new (functions : Functions) (s : Session) : Workspace :=
  ⟨[functions], [], { s with functions := 0 }, [], []⟩

/-- The open sessions, in the order in which they were opened. -/
def sessions (w : Workspace) : List Session :=
  w.earlier ++ w.current :: w.later

/-- How many sessions there are. -/
def depth (w : Workspace) : Nat :=
  w.sessions.length

/-- The functions that the session in use knows. -/
def functions (w : Workspace) : Functions :=
  w.store.read w.current.functions

/-- Go on with the session of a number, if there is one. -/
def turnTo? (k : Nat) (w : Workspace) : Option Workspace :=
  match w.sessions.drop k with
  | [] => none
  | s :: later => some { w with earlier := w.sessions.take k, current := s, later := later }

/-- Open a session and go on with it. -/
def openSession (s : Session) (w : Workspace) : Workspace :=
  { w with earlier := w.sessions, current := s, later := [] }

/-- Go on with a copy of the current session. -/
def clone (w : Workspace) : Workspace :=
  w.openSession w.current

/-- Go on with a new session, which knows the built-in functions only. -/
def openNew (w : Workspace) : Workspace :=
  let s := { Session.new with functions := w.store.length }
  { w with store := w.store.add .builtin }.openSession s

/-- Give up the current session and go on with the one opened before it, if there is one. -/
def pop (w : Workspace) : Workspace :=
  match w.earlier.getLast? with
  | none => w
  | some s => { w with earlier := w.earlier.dropLast, current := s }

/-- Add a function to those that the current session knows. -/
def register (name : String) (f : ScalarFunction) (w : Workspace) : Workspace :=
  { w with store := w.store.register w.current.functions name f }

/-- Take a snapshot of the functions that the current session knows. -/
def keepFunctions (w : Workspace) : Workspace :=
  { w with
    store := w.store.add w.functions
    snapshotHandles := w.snapshotHandles ++ [w.store.length] }

/-- The snapshots, the first one first. -/
def snapshots (w : Workspace) : List Functions :=
  w.snapshotHandles.map w.store.read

/-- The last snapshot. -/
def snapshot (w : Workspace) : Option Functions :=
  w.snapshots.getLast?

/-- Change the current session. -/
def update (f : Session → Session) (w : Workspace) : Workspace :=
  { w with current := f w.current }

/-- Carry out an operation on the current session. -/
def perform {ε α : Type} (m : ExceptT ε (StateM Session) α) (w : Workspace) :
    Except ε α × Workspace :=
  let (result, s) := m.run.run w.current
  (result, { w with current := s })

end Workspace

end TableQuery
