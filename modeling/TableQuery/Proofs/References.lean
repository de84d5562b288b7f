import TableQuery.Function.Builtin
import TableQuery.Proofs.Attempts
import TableQuery.Proofs.StepByStep
import TableQuery.Session.Workspace

/-!
# What a run leaves in its session

Only the operators that refer to tables touch the session, and they touch nothing but the registered
tables. A reference is resolved against what the references in front of it have left. So the tables
that a run leaves are those it began with, taken through its references one after the other, and a
run without aliases leaves everything as it was.
-/

namespace TableQuery

/-- The table that an operator takes from the session. -/
def Operator.reference? : Operator → Option TableRef
  | .load t => some t
  | .join t _ _ => some t
  | _ => none

namespace Session

/-- What a reference makes of the registered tables. Without an alias they stay as they are. An
alias is registered for the table that the source denotes among them, and the source is given up
unless settings say otherwise. -/
def refer (s : Session) (tables : Registry Relation) (t : TableRef) :
    Except Fault (Registry Relation) := do
  let r ← { s with tables }.resolveTable t.source
  if t.isAliased then
    let replaced ← s.configBool aliasReplaceKey true
    let bound := tables.insert t.label r
    return if replaced then bound.erase t.source else bound
  else return tables

variable {s s' : Session} {t : TableRef}

/-- A reference without an alias needs its table and nothing else. -/
theorem refer_of_not_aliased {tables tables' : Registry Relation} (ht : t.isAliased = false)
    (h : s.refer tables t = .ok tables') : tables' = tables := by
  simp only [refer, ht] at h
  obtain ⟨r, -, h⟩ := bind_eq_ok.1 h
  cases h
  rfl

/-- After a reference with an alias, the alias denotes the table that the source did, the source
denotes none if it is given up, and every other name denotes what it did. -/
theorem get?_of_refer {tables tables' : Registry Relation} (ht : t.isAliased = true)
    (h : s.refer tables t = .ok tables') :
    ∃ r replaced, { s with tables }.resolveTable t.source = .ok r ∧
      s.configBool aliasReplaceKey true = .ok replaced ∧
      ∀ name, tables'.get? name =
        if name = t.label then some r
        else if name = t.source ∧ replaced = true then none
        else tables.get? name := by
  have hne : t.label ≠ t.source := by simpa [TableRef.isAliased] using ht
  simp only [refer, ht, if_true] at h
  obtain ⟨r, hr, h⟩ := bind_eq_ok.1 h
  obtain ⟨replaced, hreplaced, h⟩ := bind_eq_ok.1 h
  cases h
  refine ⟨r, replaced, hr, hreplaced, fun name => ?_⟩
  have hbound : (tables.insert t.label r).get? name =
      if name = t.label then some r else tables.get? name := by
    split
    · next hname => rw [hname, Registry.get?_insert_self]
    · next hname => exact Registry.get?_insert_of_ne hname r tables
  cases replaced with
  | false => simpa using hbound
  | true =>
    rw [if_pos rfl]
    by_cases hname : name = t.source
    · subst hname
      rw [Registry.get?_erase_self, if_neg (Ne.symm hne), if_pos ⟨rfl, rfl⟩]
    · rw [Registry.get?_erase_of_ne hname, hbound]
      simp [hname]

end Session

namespace Setting

variable {c : Setting} {s s' : Session}

/-- Loading the table of a reference gives the table that the source denotes, in the form that the
engine works on, and changes the registered tables as the reference does. -/
theorem refer_of_load {t : TableRef} {r : Relation} (h : outcome (c.load t) s = (.ok r, s')) :
    ∃ table tables, s.resolveTable t.source = .ok table ∧ c.engine.adopt table = .ok r ∧
      s.refer s.tables t = .ok tables ∧ s' = { s with tables } := by
  obtain ⟨table, s₁, hload, hadopt⟩ := outcome_bind_eq_ok.1 h
  obtain ⟨hr, rfl⟩ := outcome_liftM_eq_ok.1 hadopt
  rw [Session.outcome_loadTable] at hload
  cases hresolve : s.resolveTable t.source with
  | error f =>
    rw [hresolve] at hload
    cases hload
  | ok table' =>
    have hrefer : s.refer s.tables t = if t.isAliased then do
        let replaced ← s.configBool Session.aliasReplaceKey true
        let bound := s.tables.insert t.label table'
        return if replaced then bound.erase t.source else bound
      else return s.tables := by
      change (do
        let r ← s.resolveTable t.source
        _) = _
      rw [hresolve]
      rfl
    rw [hresolve] at hload
    cases ht : t.isAliased with
    | false =>
      rw [ht] at hload hrefer
      cases hload
      exact ⟨table, s.tables, rfl, hr, hrefer, rfl⟩
    | true =>
      have hlabel : (some t.label).filter (· ≠ t.source) = some t.label := by
        simpa [TableRef.isAliased, Option.filter] using ht
      rw [ht, if_pos rfl] at hrefer
      rw [ht, if_pos rfl, hlabel] at hload
      dsimp only [Option.elim_none] at hload
      cases hreplaced : s.configBool Session.aliasReplaceKey true with
      | error f =>
        rw [hreplaced] at hload
        cases hload
      | ok replaced =>
        rw [hreplaced] at hload hrefer
        cases replaced with
        | false =>
          cases hload
          exact ⟨table, _, rfl, hr, hrefer, s.addTable_true t.label _⟩
        | true =>
          cases hload
          refine ⟨table, _, rfl, hr, hrefer, ?_⟩
          rw [Session.addTable_true]
          rfl

/-- A step changes the registered tables as its reference does, if it has one. -/
theorem refer_of_steps {input : Option Working} {op : Operator} {w : Working}
    (h : c.Steps input s op w s') :
    ∃ tables, op.reference?.toList.foldlM s.refer s.tables = .ok tables ∧
      s' = { s with tables } := by
  cases h with
  | load loaded =>
    obtain ⟨_, tables, -, -, hrefer, rfl⟩ := refer_of_load loaded
    exact ⟨tables, by simp [Operator.reference?, hrefer], rfl⟩
  | join _ loaded _ =>
    obtain ⟨_, tables, -, -, hrefer, rfl⟩ := refer_of_load loaded
    exact ⟨tables, by simp [Operator.reference?, hrefer], rfl⟩
  | project | filter | group | order | limit => exact ⟨s.tables, rfl, rfl⟩

/-- A run changes the registered tables as its references do, one after the other. -/
theorem refer_of_runs {input output : Option Working} {ops : List Operator}
    (h : c.Runs input s ops output s') :
    ∃ tables, (ops.filterMap Operator.reference?).foldlM s.refer s.tables = .ok tables ∧
      s' = { s with tables } := by
  induction h with
  | nil input s => exact ⟨s.tables, rfl, rfl⟩
  | @cons _ _ s _ _ op _ ops first _ ih =>
    obtain ⟨tables, hfirst, rfl⟩ := refer_of_steps (steps_of_checkedStep first).1
    obtain ⟨tables', hrest, rfl⟩ := ih
    have hsame : Session.refer { s with tables } = s.refer := rfl
    rw [hsame] at hrest
    refine ⟨tables', ?_, rfl⟩
    have hcons : (op :: ops).filterMap Operator.reference? =
        op.reference?.toList ++ ops.filterMap Operator.reference? := by
      cases hop : op.reference? <;> simp [hop]
    rw [hcons, List.foldlM_append, hfirst]
    exact hrest

end Setting

/-- References without aliases leave the registered tables. -/
theorem foldlM_refer_of_not_aliased {s : Session} {refs : List TableRef}
    {tables tables' : Registry Relation} (hrefs : ∀ t ∈ refs, t.isAliased = false)
    (h : refs.foldlM s.refer tables = .ok tables') : tables' = tables := by
  induction refs generalizing tables with
  | nil =>
    cases h
    rfl
  | cons t refs ih =>
    obtain ⟨ht, hrefs⟩ := List.forall_mem_cons.1 hrefs
    obtain ⟨tables₁, hfirst, hrest⟩ := bind_eq_ok.1 ((List.foldlM_cons ..).symm.trans h)
    rw [ih hrefs hrest, Session.refer_of_not_aliased ht hfirst]

namespace Workspace

theorem perform_eq_ok {ε α : Type} {m : ExceptT ε (StateM Session) α} {w w' : Workspace} {a : α} :
    w.perform m = (.ok a, w') ↔
      ∃ s', outcome m w.current = (.ok a, s') ∧ { w with current := s' } = w' := by
  change ((outcome m w.current).1, { w with current := (outcome m w.current).2 }) = _ ↔ _
  rcases outcome m w.current with ⟨e | b, s'⟩ <;> simp

/-- A run that succeeds changes nothing in its workspace but the registered tables of the session in
use, and these become what its references make of them, one after the other. Without aliases nothing
changes at all, and the run can be repeated with the same result. -/
theorem perform_execute_refers {w w' : Workspace} {ops : List Operator} {v : Working}
    (h : w.perform (execute w.functions ops) = (.ok v, w')) :
    (∃ tables, (ops.filterMap Operator.reference?).foldlM w.current.refer w.current.tables =
        .ok tables ∧ w' = { w with current := { w.current with tables } }) ∧
      ((∀ t ∈ ops.filterMap Operator.reference?, t.isAliased = false) →
        w' = w ∧ w'.perform (execute w'.functions ops) = (.ok v, w')) := by
  obtain ⟨s', hs', rfl⟩ := perform_eq_ok.1 h
  obtain ⟨tables, hrefs, rfl⟩ := Setting.refer_of_runs (runs_of_execute hs')
  refine ⟨⟨tables, hrefs, rfl⟩, fun hnone => ?_⟩
  obtain rfl := foldlM_refer_of_not_aliased hnone hrefs
  exact ⟨rfl, h⟩

/-- The tables of two shelves. -/
def upper : Table :=
  ⟨[⟨"id", .int64, [.int 1, .int 2]⟩, ⟨"title", .str, [.str "a", .str "b"]⟩]⟩

def lower : Table :=
  ⟨[⟨"id", .int64, [.int 2, .int 3]⟩, ⟨"price", .int64, [.int 5, .int 7]⟩]⟩

def shelves : Workspace :=
  .new .builtin
    { Session.new with tables := [("lower", .frame lower), ("upper", .frame upper)] }

/-- A join of the two shelves, in which the second one gets a name of its own. -/
def joinShelves (first second : TableRef) : List Operator :=
  [.load first, .join second .left [⟨"id", second.label ++ ".id"⟩]]

/-- The second alias is the name that the first one has just given up. -/
theorem joinShelves_leaves_shelves :
    (∃ v w', shelves.perform (execute shelves.functions
        (joinShelves ⟨"upper", "u"⟩ ⟨"lower", "upper"⟩)) = (.ok v, w') ∧
      w' = { shelves with current := { shelves.current with
        tables := [("u", .frame upper), ("upper", .frame lower)] } }) ∧
    ∃ v, shelves.perform (execute shelves.functions
        (joinShelves ⟨"upper", "upper"⟩ ⟨"lower", "lower"⟩)) = (.ok v, shelves) := by
  constructor
  · have hok : (shelves.perform (execute shelves.functions
        (joinShelves ⟨"upper", "u"⟩ ⟨"lower", "upper"⟩))).1.isOk = true := by
      decide +kernel
    obtain ⟨v, hv⟩ := exists_eq_ok hok
    obtain ⟨⟨tables, hrefs, hw⟩, -⟩ := perform_execute_refers (Prod.ext hv rfl)
    refine ⟨v, _, Prod.ext hv rfl, hw.trans ?_⟩
    cases hrefs
    rfl
  · have hok : (shelves.perform (execute shelves.functions
        (joinShelves ⟨"upper", "upper"⟩ ⟨"lower", "lower"⟩))).1.isOk = true := by
      decide +kernel
    obtain ⟨v, hv⟩ := exists_eq_ok hok
    obtain ⟨-, hplain⟩ := perform_execute_refers (Prod.ext hv rfl)
    have hnone : ∀ t ∈ (joinShelves ⟨"upper", "upper"⟩ ⟨"lower", "lower"⟩).filterMap
        Operator.reference?, t.isAliased = false := by
      decide
    exact ⟨v, Prod.ext hv (hplain hnone).1⟩

end Workspace

end TableQuery
