import TableQuery.Proofs.Run

/-!
# What failing operations leave

Loading a table, adding to a list of settings, naming a source root and choosing an engine change a
session, and each of them may fail. A failing operation keeps the settings and the loaders. But
loading has registered its alias when it finds the setting for aliases unusable, and an engine is in
use before its source root is looked up. Nothing else is left behind.
-/

namespace TableQuery

namespace Session

variable (s : Session)

theorem addTable_true (name : String) (r : Relation) :
    s.addTable name r true = { s with tables := s.tables.insert name r } := by
  simp [addTable]

/-- Loading finds its table, registers it under an alias, and only then asks whether the alias takes
the place of the name. -/
theorem outcome_loadTable (source : String) (label : Option String) (replaceAlias : Option Bool) :
    outcome (loadTable source label replaceAlias) s =
      match s.resolveTable source, label.filter (· ≠ source) with
      | .error f, _ => (.error f, s)
      | .ok r, none => (.ok r, s)
      | .ok r, some name =>
        match replaceAlias.elim (s.configBool aliasReplaceKey true) .ok with
        | .ok true => (.ok r, (s.addTable name r true).removeTable source)
        | .ok false => (.ok r, s.addTable name r true)
        | .error f => (.error f, s.addTable name r true) := by
  simp only [loadTable, outcome_bind, outcome_get, outcome_liftM]
  cases s.resolveTable source with
  | error f => rfl
  | ok r =>
    cases label.filter (· ≠ source) with
    | none => rfl
    | some name =>
      have hconfig : (s.addTable name r true).configBool aliasReplaceKey true =
          s.configBool aliasReplaceKey true := by
        rw [addTable_true]
        rfl
      cases replaceAlias with
      | some replace => cases replace <;> rfl
      | none =>
        simp only [outcome_bind, outcome_modify, outcome_get, outcome_liftM, hconfig,
          Option.elim_none]
        cases s.configBool aliasReplaceKey true with
        | error f => rfl
        | ok replace => cases replace <;> rfl

/-- A source root is looked up before anything changes. -/
theorem outcome_registerSourceRoot (key : String) (files : Files) :
    outcome (registerSourceRoot key files) s =
      match s.configText key with
      | .error f => (.error f, s)
      | .ok none => (.ok (), s)
      | .ok (some root) => (.ok (), s.addLoader (.directory root files) none) := by
  simp only [registerSourceRoot, outcome_bind, outcome_get, outcome_liftM]
  rcases s.configText key with f | _ | root <;> rfl

/-- An engine is in use when its source root is looked up. -/
theorem outcome_selectEngine (e : Engine) (files : Files) :
    outcome (selectEngine e files) s =
      outcome (registerSourceRoot e.sourceRootKey files) { s with engine := e } := by
  simp only [selectEngine, outcome_bind, outcome_modify]

end Session

/-- An operation that changes a session and may fail. -/
inductive Attempt where
  | load (source : String) (label : Option String) (replaceAlias : Option Bool)
  | append (key : String) (x : Json) (position : Option Nat) (clear : Bool)
  | sourceRoot (key : String) (files : Files)
  | engine (e : Engine) (files : Files)

namespace Attempt

/-- Carry out an operation, without the table that loading gives. -/
def carryOut : Attempt → SessionM Unit
  | .load source label replaceAlias => do
    let _ ← Session.loadTable source label replaceAlias
  | .append key x position clear => do
    set (← (← get).appendConfig key x position clear)
  | .sourceRoot key files => Session.registerSourceRoot key files
  | .engine e files => Session.selectEngine e files

/-- Whether an operation that fails has changed nothing before: the alias is registered for the same
table already, or the engine is in use already. -/
def Tidy (s : Session) : Attempt → Prop
  | .load source label _ => ∀ r name, s.resolveTable source = .ok r → label = some name →
    s.tables.insert name r = s.tables
  | .engine e _ => e = s.engine
  | _ => True

variable {s : Session} {f : Fault}

theorem outcome_carryOut_load (source : String) (label : Option String)
    (replaceAlias : Option Bool) (s : Session) :
    outcome (Attempt.load source label replaceAlias).carryOut s =
      ((outcome (Session.loadTable source label replaceAlias) s).1.map fun _ => (),
        (outcome (Session.loadTable source label replaceAlias) s).2) := by
  simp only [carryOut, outcome_bind]
  rcases outcome (Session.loadTable source label replaceAlias) s with ⟨_ | r, s'⟩ <;> rfl

/-- A load that fails has found no table, or it has registered its alias. -/
theorem load_error {source : String} {label : Option String} {replaceAlias : Option Bool}
    (h : (outcome (Attempt.load source label replaceAlias).carryOut s).1 = .error f) :
    ((∃ g, s.resolveTable source = .error g) ∧
      (outcome (Attempt.load source label replaceAlias).carryOut s).2 = s) ∨
    ∃ r name, s.resolveTable source = .ok r ∧ label = some name ∧
      (outcome (Attempt.load source label replaceAlias).carryOut s).2 =
        { s with tables := s.tables.insert name r } := by
  rw [outcome_carryOut_load, Session.outcome_loadTable] at h ⊢
  cases hr : s.resolveTable source with
  | error g => exact .inl ⟨⟨g, rfl⟩, rfl⟩
  | ok r =>
    rw [hr] at h
    cases hlabel : label.filter (· ≠ source) with
    | none =>
      rw [hlabel] at h
      cases h
    | some name =>
      have hname : label = some name := (Option.filter_eq_some_iff.1 hlabel).1
      rw [hlabel] at h
      dsimp only at h ⊢
      refine .inr ⟨r, name, rfl, hname, ?_⟩
      split at h
      · cases h
      · cases h
      · exact s.addTable_true name r

/-- An alias that a failing load has registered is registered for the same table before, or the
session has changed. -/
theorem load_keeps_iff {source : String} {label : Option String} {replaceAlias : Option Bool}
    (h : (outcome (Attempt.load source label replaceAlias).carryOut s).1 = .error f) :
    (outcome (Attempt.load source label replaceAlias).carryOut s).2 = s ↔
      (Attempt.load source label replaceAlias).Tidy s := by
  rcases load_error h with ⟨⟨g, hg⟩, hs⟩ | ⟨r, name, hr, hlabel, hs⟩
  · refine iff_of_true hs fun r name hr => ?_
    rw [hg] at hr
    cases hr
  · rw [hs]
    constructor
    · intro heq r' name' hr' hlabel'
      rw [hr] at hr'
      rw [hlabel] at hlabel'
      cases hr'
      cases hlabel'
      exact congrArg Session.tables heq
    · intro htidy
      rw [htidy r name hr hlabel]

/-- The list of a setting is found in order before anything is written to it. -/
theorem append_error {key : String} {x : Json} {position : Option Nat} {clear : Bool}
    (h : (outcome (Attempt.append key x position clear).carryOut s).1 = .error f) :
    (outcome (Attempt.append key x position clear).carryOut s).2 = s := by
  simp only [carryOut, outcome_bind, outcome_get, outcome_liftM] at h ⊢
  cases happend : s.appendConfig key x position clear with
  | error g => rfl
  | ok s' =>
    rw [happend] at h
    cases h

theorem sourceRoot_error {key : String} {files : Files}
    (h : (outcome (Attempt.sourceRoot key files).carryOut s).1 = .error f) :
    (outcome (Attempt.sourceRoot key files).carryOut s).2 = s := by
  rw [carryOut, Session.outcome_registerSourceRoot] at h ⊢
  split at h
  · rfl
  · cases h
  · cases h

/-- What fails behind the choice of an engine is its source root. -/
theorem engine_error {e : Engine} {files : Files}
    (h : (outcome (Attempt.engine e files).carryOut s).1 = .error f) :
    (outcome (Attempt.engine e files).carryOut s).2 = { s with engine := e } := by
  rw [carryOut, Session.outcome_selectEngine] at h ⊢
  exact sourceRoot_error h

/-- A failing operation keeps the settings and the loaders. It keeps the whole session exactly if
the alias or the engine that it has put in place before it fails was in place already. -/
theorem fault_keeps_session_iff {a : Attempt} (h : (outcome a.carryOut s).1 = .error f) :
    ((outcome a.carryOut s).2 = s ↔ a.Tidy s) ∧
      (outcome a.carryOut s).2.config = s.config ∧
      (outcome a.carryOut s).2.loaders = s.loaders := by
  cases a with
  | load source label replaceAlias =>
    refine ⟨load_keeps_iff h, ?_⟩
    rcases load_error h with ⟨-, hs⟩ | ⟨r, name, -, -, hs⟩
    · exact ⟨by rw [hs], by rw [hs]⟩
    · exact ⟨by rw [hs], by rw [hs]⟩
  | append key x position clear =>
    have hs := append_error h
    exact ⟨iff_of_true hs trivial, by rw [hs], by rw [hs]⟩
  | sourceRoot key files =>
    have hs := sourceRoot_error h
    exact ⟨iff_of_true hs trivial, by rw [hs], by rw [hs]⟩
  | engine e files =>
    rw [engine_error h]
    exact ⟨⟨congrArg Session.engine, fun he => by rw [he]⟩, rfl, rfl⟩

/-- A session with a table and two settings that are of no use: the one for aliases is no truth
value, and the source root of an engine is no text. -/
def misconfigured : Session :=
  { Session.new with
    tables := [("T", .frame ⟨[⟨"a", .int64, [.int 1]⟩]⟩)]
    config := [("lazy.source_root", .int 3), ("load.alias_replace", .str "yes")] }

/-- A load that finds no table leaves even that session as it was. -/
theorem missing_load_keeps_misconfigured :
    (outcome (Attempt.load "U" (some "u") none).carryOut misconfigured).1.isOk = false ∧
      (outcome (Attempt.load "U" (some "u") none).carryOut misconfigured).2 = misconfigured := by
  have herror : (outcome (Attempt.load "U" (some "u") none).carryOut misconfigured).1 =
      .error (.noTable "U") := by
    rw [outcome_carryOut_load]
    rfl
  rw [herror]
  refine ⟨rfl, (fault_keeps_session_iff herror).1.2 fun r name hr => ?_⟩
  cases hr

/-- A load that fails at the setting for aliases has registered its alias, and an engine whose
source root is of no use is in use. -/
theorem late_faults_change_misconfigured :
    (outcome (Attempt.load "T" (some "t") none).carryOut misconfigured).1.isOk = false ∧
      (outcome (Attempt.load "T" (some "t") none).carryOut misconfigured).2.tables.names =
        ["T", "t"] ∧
      (outcome (Attempt.engine .deferred []).carryOut misconfigured).1.isOk = false ∧
      (outcome (Attempt.engine .deferred []).carryOut misconfigured).2.engine = .deferred ∧
      misconfigured.tables.names = ["T"] ∧ misconfigured.engine = .eager := by
  decide +kernel

end Attempt

end TableQuery
