import TableQuery.Proofs.Frames
import TableQuery.Proofs.JoinOrigins
import TableQuery.Proofs.Orderly.Session
import TableQuery.Proofs.PlanNames

/-!
# Chains of joins

A run of operators that loads a table and joins further ones to it goes through tables that hold the
columns of all tables loaded so far. Each join finds new names for its columns, and in the end a
column written with the label of its table denotes the column that carries it, whichever of the
other tables have a column of that name, and whichever engine runs the operators.
-/

namespace TableQuery

open Name

namespace Engine

variable {e : Engine} {p : JoinPlan} {left right joined : Relation}

/-- The columns of a joined table are those of the left table, and the renamed ones of the right
table. -/
theorem names_of_join (h : e.join p left right = .ok joined) {names names' all : List String}
    (hleft : left.names = .ok names) (hright : right.names = .ok names')
    (hall : joined.names = .ok all) :
    ∃ renames, p.renamedRight names names' = .ok renames ∧ all = names ++ renames.map Prod.snd := by
  cases e with
  | eager =>
    obtain ⟨l, hl, h⟩ := bind_eq_ok.1 h
    obtain ⟨r, hr, h⟩ := bind_eq_ok.1 h
    obtain ⟨t, ht, h⟩ := bind_eq_ok.1 h
    cases h
    cases hall
    obtain ⟨renames, hrenames, ht⟩ := bind_eq_ok.1 ht
    obtain ⟨_, -, ht⟩ := bind_eq_ok.1 ht
    obtain ⟨_, -, ht⟩ := bind_eq_ok.1 ht
    obtain ⟨_, -, ht⟩ := bind_eq_ok.1 ht
    rw [Relation.names_of_collect hleft hl, Relation.names_of_collect hright hr] at hrenames
    refine ⟨renames, hrenames, ?_⟩
    rw [← Relation.names_of_collect hleft hl]
    exact Table.map_name_of_columns (Table.select_eq_ok ht)
  | deferred =>
    obtain ⟨plan, hplan, h⟩ := bind_eq_ok.1 h
    cases h
    obtain ⟨sl, sr, renames, hsl, hsr, hrenames, rfl⟩ := Deferred.eq_of_join hplan
    obtain ⟨_, hsl', rfl⟩ := Relation.exists_schema hleft
    obtain ⟨_, hsr', rfl⟩ := Relation.exists_schema hright
    obtain rfl := Except.ok.inj (hsl.symm.trans hsl')
    obtain rfl := Except.ok.inj (hsr.symm.trans hsr')
    obtain ⟨s, hs, hall⟩ := bind_eq_ok.1 hall
    cases hall
    obtain ⟨s', -, hs⟩ := bind_eq_ok.1 hs
    refine ⟨renames, hrenames, ?_⟩
    rw [Schema.map_fst_ofOutputs hs, Table.map_fst_copies]

/-- On either engine a joined table, once made, is the join of the two tables. -/
theorem collect_of_join (h : e.join p left right = .ok joined) {t : Table}
    (ht : joined.collect = .ok t) :
    ∃ l r, left.collect = .ok l ∧ right.collect = .ok r ∧ Eager.join p l r = .ok t := by
  cases e with
  | eager =>
    obtain ⟨l, hl, h⟩ := bind_eq_ok.1 h
    obtain ⟨r, hr, h⟩ := bind_eq_ok.1 h
    obtain ⟨t', ht', h⟩ := bind_eq_ok.1 h
    cases h
    cases ht
    exact ⟨l, r, hl, hr, ht'⟩
  | deferred =>
    obtain ⟨plan, hplan, h⟩ := bind_eq_ok.1 h
    cases h
    simpa using Deferred.collect_join hplan ht

/-- Where the joined columns find new names, a join is orderly. -/
theorem orderly_join {names names' : List String} {renames : List (String × String)}
    (hleft : left.names = .ok names) (hright : right.names = .ok names')
    (hrenames : p.renamedRight names names' = .ok renames) : Orderly (e.join p left right) := by
  cases e with
  | eager =>
    unfold join
    cases hl : left.collect with
    | error f => simpa using left.orderly_collect f hl
    | ok l =>
      cases hr : right.collect with
      | error f => simpa using right.orderly_collect f hr
      | ok r =>
        rw [← Relation.names_of_collect hleft hl, ← Relation.names_of_collect hright hr] at hrenames
        exact .map (Eager.orderly_join hrenames)
  | deferred =>
    have hl : left.toPlan.names = .ok names := by
      rw [← hleft]
      exact left.names_plan_toPlan
    have hr : right.toPlan.names = .ok names' := by
      rw [← hright]
      exact right.names_plan_toPlan
    simp only [join, Deferred.join, hl, hr, hrenames, ok_bind]
    exact .pure _

end Engine

/-- A table with bare and pairwise different names of columns, none as helpers have, and with a cell
in every row of every column. -/
structure Relation.IsBase (r : Relation) : Prop where
  names : ∀ names, r.names = .ok names →
    names.Nodup ∧ ∀ n ∈ names, IsBare n ∧ ¬BeginsAsHelper n
  rectangular : ∀ t, r.collect = .ok t → t.IsRectangular

theorem JoinPlan.of_ofKeys {mode : JoinMode} {label : String} {on : List JoinKey}
    {left right : List String} {p : JoinPlan} (h : ofKeys mode label on left right = .ok p) :
    p.mode = mode ∧ p.label = label := by
  obtain ⟨pairs, -, h⟩ := bind_eq_ok.1 h
  cases h
  exact ⟨rfl, rfl⟩

theorem Distinguished.of_zip {labels : List String} {columns : List (List String)}
    (hlength : labels.length = columns.length) (hlabels : ∀ l ∈ labels, l ≠ "")
    (hdistinct : labels.Nodup) (hbare : ∀ cs ∈ columns, ∀ c ∈ cs, IsBare c) :
    Distinguished (labels.zip columns) := by
  refine ⟨?_, ?_, ?_⟩
  · rintro ⟨l, cs⟩ h
    exact hlabels l (List.of_mem_zip h).1
  · rwa [List.map_fst_zip (by omega)]
  · rintro ⟨l, cs⟩ h
    exact hbare cs (List.of_mem_zip h).2

/-- A table made of a chain of loaded tables: its names are those of the chain, and once made it
carries the columns of all of them. -/
structure Chained (labels : List String) (modes : List JoinMode) (loaded : List Relation)
    (joined : Relation) : Prop where
  length : labels.length = loaded.length
  bases : ∀ r ∈ loaded, r.IsBase
  names : ∃ columns, List.Forall₂ (fun r names => r.names = .ok names) loaded columns ∧
    joined.names = .ok (chainNames (labels.zip columns))
  carries : ∀ t, joined.collect = .ok t → ∃ tables rows,
    List.Forall₂ (fun r t => r.collect = .ok t) loaded tables ∧
      IsOrigins modes (tables.map Table.height) rows ∧ Carries (labels.zip tables) rows t

namespace Chained

variable {labels : List String} {modes : List JoinMode} {loaded : List Relation}
  {joined : Relation}

/-- The names of tables are those that were shown before they were made. -/
theorem map_names {columns : List (List String)} {tables : List Table}
    (hcolumns : List.Forall₂ (fun r names => r.names = .ok names) loaded columns)
    (htables : List.Forall₂ (fun r t => r.collect = .ok t) loaded tables) :
    tables.map Table.names = columns := by
  induction hcolumns generalizing tables with
  | nil =>
    cases htables
    rfl
  | cons hnames _ ih =>
    cases htables with
    | cons ht htables => rw [List.map_cons, Relation.names_of_collect hnames ht, ih htables]

theorem map_parts (labels : List String) (tables : List Table) :
    (labels.zip tables).map (fun p => (p.1, p.2.names)) = labels.zip (tables.map Table.names) := by
  rw [List.zip_map_right]
  rfl

theorem names_of_mem {columns : List (List String)} {tables : List Table}
    (hcolumns : List.Forall₂ (fun r names => r.names = .ok names) loaded columns)
    (htables : List.Forall₂ (fun r t => r.collect = .ok t) loaded tables)
    (hbases : ∀ r ∈ loaded, r.IsBase) {t : Table} (ht : t ∈ tables) :
    ∀ n ∈ t.names, IsBare n ∧ ¬BeginsAsHelper n := by
  have hmem : t.names ∈ columns := by
    rw [← map_names hcolumns htables]
    exact List.mem_map_of_mem ht
  obtain ⟨r, hr, hnames⟩ := exists_of_mem_right hcolumns hmem
  exact ((hbases r hr).names _ hnames).2

/-- The labels of a chain tell its tables apart. -/
theorem distinguished {columns : List (List String)}
    (hcolumns : List.Forall₂ (fun r names => r.names = .ok names) loaded columns)
    (hbases : ∀ r ∈ loaded, r.IsBase) (hlength : labels.length = loaded.length)
    (hlabels : ∀ l ∈ labels, l ≠ "") (hdistinct : labels.Nodup) :
    Distinguished (labels.zip columns) := by
  refine .of_zip (hlength.trans hcolumns.length_eq) hlabels hdistinct fun cs hcs c hc => ?_
  obtain ⟨r, hr, hnames⟩ := exists_of_mem_right hcolumns hcs
  exact (((hbases r hr).names cs hnames).2 c hc).1

theorem load {r : Relation} (hr : r.IsBase) {names : List String} (hnames : r.names = .ok names)
    (label : String) : Chained [label] [] [r] r := by
  refine ⟨rfl, by simpa using hr, ⟨[names], .cons hnames .nil, ?_⟩, fun t ht => ?_⟩
  · have hbare : physicalName [] label = id := by
      funext c
      simp [physicalName]
    rw [hnames]
    simp [chainNames, namesBehind, hbare]
  · have hnodup : t.names.Nodup := by
      rw [Relation.names_of_collect hnames ht]
      exact (hr.names names hnames).1
    exact ⟨[t], _, .cons ht .nil, .load t.height,
      Carries.load hnodup (hr.rectangular t ht) label⟩

/-- What a join goes through that gets as far as planning. -/
theorem names_of_joined {c : Setting} {left right out : Relation} {label : String}
    {mode : JoinMode} {on : List JoinKey} (h : c.joined left right label mode on = .ok out) :
    ∃ names names' p, left.names = .ok names ∧ right.names = .ok names' ∧
      (p : JoinPlan).mode = mode ∧ p.label = label ∧ c.engine.join p left right = .ok out := by
  obtain ⟨names, hnames, h⟩ := bind_eq_ok.1 h
  obtain ⟨names', hnames', h⟩ := bind_eq_ok.1 h
  obtain ⟨p, hp, h⟩ := bind_eq_ok.1 h
  obtain ⟨hmode, hlabel⟩ := JoinPlan.of_ofKeys hp
  exact ⟨names, names', p, hnames, hnames', hmode, hlabel, h⟩

theorem bases_concat (h : Chained labels modes loaded joined) {right : Relation}
    (hright : right.IsBase) : ∀ r ∈ loaded ++ [right], r.IsBase := by
  intro r hr
  rcases List.mem_append.1 hr with hr | hr
  · exact h.bases r hr
  · rwa [List.mem_singleton.1 hr]

section

variable (h : Chained labels modes loaded joined) {right : Relation} (hright : right.IsBase)
  {label : String} (hlabels : ∀ l ∈ labels ++ [label], l ≠ "")
  (hdistinct : (labels ++ [label]).Nodup)

include h hright hlabels hdistinct

/-- The joined columns find new names behind a chain. -/
theorem renamedRight_eq {names names' : List String} (hnames : joined.names = .ok names)
    (hnames' : right.names = .ok names') {p : JoinPlan} (hp : p.label = label) :
    ∃ columns, List.Forall₂ (fun r names => r.names = .ok names) loaded columns ∧
      names = chainNames (labels.zip columns) ∧
      Distinguished (labels.zip columns ++ [(label, names')]) ∧
      p.renamedRight names names' =
        .ok (names'.map fun c => (c, physicalName columns label c)) := by
  obtain ⟨columns, hcolumns, hchain⟩ := h.names
  have hlength := h.length.trans hcolumns.length_eq
  have hlonger : List.Forall₂ (fun r names => r.names = .ok names) (loaded ++ [right])
      (columns ++ [names']) := List.rel_append hcolumns (.cons hnames' .nil)
  have hd : Distinguished ((labels ++ [label]).zip (columns ++ [names'])) :=
    Chained.distinguished hlonger (h.bases_concat hright) (by simp [h.length]) hlabels hdistinct
  rw [List.zip_append hlength, List.zip_cons_cons, List.zip_nil_left] at hd
  rw [hnames] at hchain
  cases hchain
  refine ⟨columns, hcolumns, rfl, hd, ?_⟩
  rw [hd.renamedRight_eq hp, List.map_snd_zip (by omega)]

/-- A join behind a chain does not fail for columns that cannot be told apart. -/
theorem freeOf_joined (c : Setting) (mode : JoinMode) (on : List JoinKey) :
    FreeOf Fault.isAmbiguous (c.joined joined right label mode on) := by
  unfold Setting.joined
  cases hnames : joined.names with
  | error f => simpa using joined.orderly_names.ambiguous f hnames
  | ok names =>
    cases hnames' : right.names with
    | error f => simpa using right.orderly_names.ambiguous f hnames'
    | ok names' =>
      simp only [ok_bind]
      cases hp : JoinPlan.ofKeys mode label on names names' with
      | error f => simpa using (JoinPlan.orderly_ofKeys _ _ _ _ _).ambiguous f hp
      | ok p =>
        obtain ⟨_, -, -, -, hrenames⟩ := h.renamedRight_eq hright hlabels hdistinct hnames hnames'
          (JoinPlan.of_ofKeys hp).2
        exact (Engine.orderly_join hnames hnames' hrenames).ambiguous

/-- A join makes a table of the longer chain. -/
theorem join {c : Setting} {mode : JoinMode} {on : List JoinKey} {out : Relation}
    (hjoin : c.joined joined right label mode on = .ok out) {all : List String}
    (hall : out.names = .ok all) :
    Chained (labels ++ [label]) (modes ++ [mode]) (loaded ++ [right]) out := by
  obtain ⟨names, names', p, hnames, hnames', rfl, hp, hjoin⟩ := names_of_joined hjoin
  obtain ⟨columns, hcolumns, hchain, hd, hrenames⟩ :=
    h.renamedRight_eq hright hlabels hdistinct hnames hnames' hp
  have hlength := h.length.trans hcolumns.length_eq
  refine ⟨by simp [h.length], h.bases_concat hright, ⟨columns ++ [names'],
    List.rel_append hcolumns (.cons hnames' .nil), ?_⟩, fun t ht => ?_⟩
  · obtain ⟨renames, hrenames', rfl⟩ := Engine.names_of_join hjoin hnames hnames' hall
    rw [hrenames] at hrenames'
    cases hrenames'
    rw [hall, List.zip_append hlength, List.zip_cons_cons, List.zip_nil_left, chainNames_concat,
      hchain, List.map_snd_zip (by omega), List.map_map]
    rfl
  · obtain ⟨l, r, hl, hr, hlr⟩ := Engine.collect_of_join hjoin ht
    obtain ⟨tables, rows, htables, hrows, hcarries⟩ := h.carries l hl
    have htnames := map_names hcolumns htables
    have hrnames := Relation.names_of_collect hnames' hr
    have hlength' : labels.length = tables.length := h.length.trans htables.length_eq
    have hparts : (labels ++ [label]).zip (tables ++ [r]) = labels.zip tables ++ [(label, r)] := by
      rw [List.zip_append hlength', List.zip_cons_cons, List.zip_nil_left]
    have hwidth : (labels.zip tables).length = (tables.map Table.height).length := by
      simp [hlength']
    have hloaded : List.Forall₂ (fun r t => r.collect = .ok t) (loaded ++ [right])
        (tables ++ [r]) := List.rel_append htables (.cons hr .nil)
    have hordinary : ∀ q ∈ labels.zip tables ++ [(label, r)], ∀ n ∈ q.2.names,
        ¬BeginsAsHelper n := by
      rintro ⟨l', t'⟩ hmem n hn
      rw [← hparts] at hmem
      exact (names_of_mem (List.rel_append hcolumns (.cons hnames' .nil)) hloaded
        (h.bases_concat hright) (List.of_mem_zip hmem).2 n hn).2
    rw [← htnames, ← hrnames, ← map_parts] at hd
    obtain ⟨related, hout⟩ := hcarries.join (by rw [hwidth]; exact hrows.length_row) hordinary
      (by simpa using hd) hp hlr
    refine ⟨tables ++ [r], _, hloaded, ?_, hparts ▸ hout⟩
    rw [List.map_append, List.map_singleton, hwidth]
    exact hrows.join p.mode related r.height

end

end Chained

/-! ## Runs -/

/-- Every table that references load, one after the other, is a base. -/
def Setting.LoadsBases (c : Setting) : List TableRef → Session → Prop
  | [], _ => True
  | t :: ts, s => ∀ r s', outcome (c.load t) s = (.ok r, s') → r.IsBase ∧ c.LoadsBases ts s'

/-- In a session of bases at hand every table that is loaded is a base. -/
theorem Setting.loadsBases_of_frames {c : Setting} (refs : List TableRef) {s : Session}
    (h : s.HoldsFrames fun t => (Relation.frame t).IsBase) : c.LoadsBases refs s := by
  induction refs generalizing s with
  | nil => trivial
  | cons t ts ih =>
    intro r s' hload
    obtain ⟨hs, hbase⟩ := Setting.frame_of_load (c := c) h t
    rw [hload] at hs hbase
    obtain ⟨u, hu, hcollect, hnames⟩ := hbase r rfl
    refine ⟨⟨fun names h => hu.names names ?_, fun v hv => hu.rectangular v ?_⟩, ih hs⟩
    · rw [← h, hnames]
      rfl
    · rw [← hv, hcollect]
      rfl

/-- The operators of a chain: a table, and others joined to it. -/
def chainOperators (first : TableRef) (joins : List (TableRef × JoinMode × List JoinKey)) :
    List Operator :=
  .load first :: joins.map fun (t, mode, on) => .join t mode on

namespace Setting

variable {c : Setting}

/-- A join behind a chain goes on with it, or fails for other reasons than columns that cannot be
told apart. -/
theorem chained_checkedStep {labels : List String} {modes : List JoinMode}
    {loaded : List Relation} {w : Working} (hw : w.keys = none)
    (h : Chained labels modes loaded w.table) {t : TableRef}
    (hlabels : ∀ l ∈ labels ++ [t.label], l ≠ "") (hdistinct : (labels ++ [t.label]).Nodup)
    (mode : JoinMode) (on : List JoinKey) {s : Session}
    (hbase : ∀ r s', outcome (c.load t) s = (.ok r, s') → r.IsBase) :
    (∀ f s', outcome (c.checkedStep (.join t mode on) (some w)) s = (.error f, s') →
      f.isAmbiguous = false) ∧
    ∀ w' s', outcome (c.checkedStep (.join t mode on) (some w)) s = (.ok w', s') →
      ∃ r, outcome (c.load t) s = (.ok r, s') ∧ w'.keys = none ∧
        Chained (labels ++ [t.label]) (modes ++ [mode]) (loaded ++ [r]) w'.table := by
  have hstep : c.step (.join t mode on) (some w) = c.join w t mode on := rfl
  rw [outcome_checkedStep, hstep, outcome_join c hw]
  rcases hload : outcome (c.load t) s with ⟨f | r, s'⟩
  · refine ⟨?_, fun _ _ hrun => by cases hrun⟩
    rintro _ _ ⟨⟩
    have := (settles_load (c := c) t s).1.ambiguous f
    rw [hload] at this
    exact this rfl
  · have hr := hbase r s' hload
    dsimp only
    cases hjoin : c.joined w.table r t.label mode on with
    | error f =>
      refine ⟨?_, fun _ _ hrun => by cases hrun⟩
      rintro _ _ ⟨⟩
      exact h.freeOf_joined hr hlabels hdistinct c mode on f hjoin
    | ok out =>
      cases hall : out.names with
      | error f =>
        simp only [map_ok, Working.plain, hall, map_error]
        refine ⟨?_, fun _ _ hrun => by cases hrun⟩
        rintro _ _ ⟨⟩
        exact out.orderly_names.ambiguous f hall
      | ok all =>
        simp only [map_ok, Working.plain, hall]
        refine ⟨fun _ _ hrun => (by cases hrun), ?_⟩
        rintro _ _ ⟨⟩
        exact ⟨r, rfl, rfl, h.join hr hlabels hdistinct hjoin hall⟩

/-- A run of joins behind a chain. -/
theorem chained_executeFrom (joins : List (TableRef × JoinMode × List JoinKey))
    {labels : List String} {modes : List JoinMode} {loaded : List Relation} {w : Working}
    (hw : w.keys = none) (h : Chained labels modes loaded w.table)
    (hlabels : ∀ l ∈ labels ++ joins.map fun j => j.1.label, l ≠ "")
    (hdistinct : (labels ++ joins.map fun j => j.1.label).Nodup) (i : Nat) {s : Session}
    (hbases : c.LoadsBases (joins.map Prod.fst) s) :
    (∀ f s', outcome (c.executeFrom i (some w) (joins.map fun (t, mode, on) =>
        .join t mode on)) s = (.error f, s') → f.fault.isAmbiguous = false) ∧
    ∀ w' s', outcome (c.executeFrom i (some w) (joins.map fun (t, mode, on) =>
        .join t mode on)) s = (.ok w', s') →
      ∃ rs, outcome ((joins.map Prod.fst).mapM c.load) s = (.ok rs, s') ∧ w'.keys = none ∧
        Chained (labels ++ joins.map fun j => j.1.label) (modes ++ joins.map fun j => j.2.1)
          (loaded ++ rs) w'.table := by
  induction joins generalizing labels modes loaded w i s with
  | nil =>
    refine ⟨fun _ _ hrun => (by cases hrun), ?_⟩
    rintro _ _ ⟨⟩
    exact ⟨[], rfl, hw, by simpa using h⟩
  | cons j joins ih =>
    obtain ⟨t, mode, on⟩ := j
    rw [List.map_cons, List.append_cons] at hlabels hdistinct
    have hsublist : (labels ++ [t.label]).Sublist
        (labels ++ [t.label] ++ joins.map fun j => j.1.label) := List.sublist_append_left _ _
    obtain ⟨hfault, hok⟩ := chained_checkedStep hw h (fun l hl => hlabels l (hsublist.subset hl))
      (hsublist.nodup hdistinct) mode on fun r s' hload => (hbases r s' hload).1
    rw [List.map_cons, outcome_executeFrom_cons]
    rcases hstep : outcome (c.checkedStep (.join t mode on) (some w)) s with ⟨f | w', s'⟩
    · refine ⟨?_, fun _ _ hrun => by cases hrun⟩
      rintro _ _ ⟨⟩
      simpa [Failure.fault] using hfault f s' hstep
    · obtain ⟨r, hload, hw', h'⟩ := hok w' s' hstep
      obtain ⟨hfault', hok'⟩ := ih hw' h' hlabels hdistinct (i + 1) (hbases r s' hload).2
      refine ⟨hfault', fun w'' s'' hrun => ?_⟩
      obtain ⟨rs, hrs, hw'', h''⟩ := hok' w'' s'' hrun
      refine ⟨r :: rs, ?_, hw'', by simpa using h''⟩
      simp only [List.map_cons, outcome_mapM_cons, hload, hrs, map_ok]

/-- A run of a chain goes through tables that carry those loaded so far. -/
theorem chained_execute {first : TableRef} {joins : List (TableRef × JoinMode × List JoinKey)}
    (hlabels : ∀ t ∈ first :: joins.map Prod.fst, t.label ≠ "")
    (hdistinct : ((first :: joins.map Prod.fst).map TableRef.label).Nodup) {s : Session}
    (hbases : c.LoadsBases (first :: joins.map Prod.fst) s) :
    (∀ f s', outcome (c.executeFrom 0 none (chainOperators first joins)) s = (.error f, s') →
      f.fault.isAmbiguous = false) ∧
    ∀ w s', outcome (c.executeFrom 0 none (chainOperators first joins)) s = (.ok w, s') →
      ∃ rs, outcome ((first :: joins.map Prod.fst).mapM c.load) s = (.ok rs, s') ∧
        w.keys = none ∧ Chained ((first :: joins.map Prod.fst).map TableRef.label)
          (joins.map fun j => j.2.1) rs w.table := by
  have hmap : (joins.map Prod.fst).map TableRef.label = joins.map fun j => j.1.label := by
    rw [List.map_map]
    rfl
  have hlabels' : ∀ l ∈ (first :: joins.map Prod.fst).map TableRef.label, l ≠ "" :=
    List.forall_mem_map.2 hlabels
  rw [List.map_cons, hmap] at hdistinct hlabels' ⊢
  rw [chainOperators, outcome_executeFrom_cons, outcome_checkedStep, outcome_step_load]
  rcases hload : outcome (c.load first) s with ⟨f | r, s'⟩
  · refine ⟨?_, fun _ _ hrun => by cases hrun⟩
    rintro _ _ ⟨⟩
    have := (settles_load (c := c) first s).1.ambiguous f
    rw [hload] at this
    simpa [Failure.fault] using this rfl
  · obtain ⟨hr, hrest⟩ := hbases r s' hload
    dsimp only [Working.plain]
    cases hnames : r.names with
    | error f =>
      refine ⟨?_, fun _ _ hrun => by cases hrun⟩
      rintro _ _ ⟨⟩
      simpa [Failure.fault] using r.orderly_names.ambiguous f hnames
    | ok names =>
      have hchain : Chained [first.label] [] [r] (Working.plain r).table :=
        Chained.load hr hnames first.label
      obtain ⟨hfault, hok⟩ := chained_executeFrom joins rfl hchain hlabels' hdistinct 1 hrest
      refine ⟨hfault, fun w s'' hrun => ?_⟩
      obtain ⟨rs, hrs, hw, h⟩ := hok w s'' hrun
      refine ⟨r :: rs, ?_, hw, h⟩
      simp only [outcome_mapM_cons, hload, hrs, map_ok]

end Setting

/-- Along a chain of joins whose labels are pairwise different no column lacks a new name. Every
column of every table, written with the label of the table, denotes the column of the result that
carries it: with its cell in the rows that come from a row of that table, and with a missing one in
the others. -/
theorem chain_resolves_columns {functions : Functions} {first : TableRef}
    {joins : List (TableRef × JoinMode × List JoinKey)} {s : Session}
    (hlabels : ∀ t ∈ first :: joins.map Prod.fst, t.label ≠ "")
    (hdistinct : ((first :: joins.map Prod.fst).map TableRef.label).Nodup)
    (hbases : Setting.LoadsBases ⟨s.engine, functions⟩ (first :: joins.map Prod.fst) s) :
    (∀ f s', outcome (executeCollect functions (chainOperators first joins)) s = (.error f, s') →
      f.fault.isAmbiguous = false) ∧
    ∀ t s', outcome (executeCollect functions (chainOperators first joins)) s = (.ok t, s') →
      ∃ loaded tables rows,
        outcome ((first :: joins.map Prod.fst).mapM (Setting.load ⟨s.engine, functions⟩)) s =
          (.ok loaded, s') ∧
        List.Forall₂ (fun r u => r.collect = .ok u) loaded tables ∧
        IsOrigins (joins.map fun j => j.2.1) (tables.map Table.height) rows ∧
        t.names.Nodup ∧ t.height = rows.length ∧
        ∀ i ref table, (first :: joins.map Prod.fst)[i]? = some ref → tables[i]? = some table →
          ∀ column ∈ table.columns, ∃ name,
            resolve? (qualify ref.label column.name) t.names = some name ∧
              t.column name = .ok (spreadColumn rows i name column) := by
  obtain ⟨hfault, hok⟩ := Setting.chained_execute hlabels hdistinct hbases
  rw [outcome_executeCollect]
  rcases hrun : outcome (Setting.executeFrom ⟨s.engine, functions⟩ 0 none
      (chainOperators first joins)) s with ⟨f | w, s'⟩
  · refine ⟨?_, fun _ _ hrun => by cases hrun⟩
    rintro _ _ ⟨⟩
    exact hfault f s' hrun
  · obtain ⟨loaded, hloaded, hw, h⟩ := hok w s' hrun
    have hplain : w.intoPlain "result" = .ok w.table := by
      simp [Working.intoPlain, hw]
    simp only [hplain, ok_bind]
    cases hcollect : w.table.collect with
    | error f =>
      refine ⟨?_, fun _ _ hrun => by cases hrun⟩
      rintro _ _ ⟨⟩
      simpa [Failure.fault] using w.table.orderly_collect.ambiguous f hcollect
    | ok t =>
      refine ⟨fun _ _ hrun => (by cases hrun), ?_⟩
      rintro _ _ ⟨⟩
      obtain ⟨tables, rows, htables, hrows, hcarries⟩ := h.carries t hcollect
      refine ⟨loaded, tables, rows, hloaded, htables, hrows, hcarries.nodup, hcarries.height,
        fun i ref table href htable column hcolumn => ?_⟩
      have hpart : (((first :: joins.map Prod.fst).map TableRef.label).zip tables)[i]? =
          some (ref.label, table) := by
        rw [List.getElem?_zip_eq_some, List.getElem?_map, href]
        exact ⟨rfl, htable⟩
      obtain ⟨columns, hcolumns, -⟩ := h.names
      have hd := Chained.distinguished hcolumns h.bases h.length
        (List.forall_mem_map.2 hlabels) hdistinct
      rw [← Chained.map_names hcolumns htables, ← Chained.map_parts] at hd
      have hlisted : ((((first :: joins.map Prod.fst).map TableRef.label).zip tables).map
          fun p => (p.1, p.2.names))[i]? = some (ref.label, table.names) := by
        rw [List.getElem?_map, hpart]
        rfl
      refine ⟨_, ?_, Table.column_of_mem hcarries.nodup
        (hcarries.columns i ref.label table hpart column hcolumn)⟩
      rw [hcarries.names, hd.resolve?_qualify hlisted (List.mem_map_of_mem hcolumn),
        ← List.map_take, List.map_map]
      rfl

/-- A session with three tables, all of which have a column of one name. -/
def shop : Session :=
  { Session.new with
    tables := [
      ("items", .frame ⟨[⟨"id", .int64, [.int 5, .int 6]⟩, ⟨"sold", .int64, [.int 1, .int 3]⟩]⟩),
      ("orders", .frame ⟨[⟨"id", .int64, [.int 1, .int 2]⟩, ⟨"by", .int64, [.int 7, .int 7]⟩]⟩),
      ("users", .frame ⟨[⟨"id", .int64, [.int 7, .int 8]⟩]⟩)] }

/-- The joins of the other two tables to that of the users. -/
def shopJoins : List (TableRef × JoinMode × List JoinKey) :=
  [(⟨"orders", "o"⟩, .left, [⟨"u.id", "o.by"⟩]), (⟨"items", "i"⟩, .left, [⟨"o.id", "i.sold"⟩])]

theorem holdsFrames_shop : shop.HoldsFrames fun t => (Relation.frame t).IsBase := by
  refine ⟨rfl, ?_⟩
  simp only [shop, List.mem_cons, List.not_mem_nil, or_false]
  rintro x (rfl | rfl | rfl) <;>
  · refine ⟨_, rfl, ⟨?_, ?_⟩⟩
    · rintro _ ⟨⟩
      simp only [IsBare, BeginsAsHelper]
      decide
    · rintro _ ⟨⟩
      unfold Table.IsRectangular
      decide

theorem shop_resolves_columns :
    ∃ t s', outcome (executeCollect .builtin (chainOperators ⟨"users", "u"⟩ shopJoins)) shop =
        (.ok t, s') ∧
      ∃ loaded tables rows,
        outcome (((⟨"users", "u"⟩ : TableRef) :: shopJoins.map Prod.fst).mapM
          (Setting.load ⟨shop.engine, .builtin⟩)) shop = (.ok loaded, s') ∧
        List.Forall₂ (fun r u => r.collect = .ok u) loaded tables ∧
        IsOrigins (shopJoins.map fun j => j.2.1) (tables.map Table.height) rows ∧
        t.names.Nodup ∧ t.height = rows.length ∧
        ∀ i ref table, ((⟨"users", "u"⟩ : TableRef) :: shopJoins.map Prod.fst)[i]? = some ref →
          tables[i]? = some table → ∀ column ∈ table.columns, ∃ name,
            resolve? (qualify ref.label column.name) t.names = some name ∧
              t.column name = .ok (spreadColumn rows i name column) := by
  obtain ⟨t, ht⟩ := exists_eq_ok (x := (outcome (executeCollect .builtin
    (chainOperators ⟨"users", "u"⟩ shopJoins)) shop).1) (by decide +kernel)
  have hrun : outcome (executeCollect .builtin (chainOperators ⟨"users", "u"⟩ shopJoins)) shop =
      (.ok t, (outcome (executeCollect .builtin
        (chainOperators ⟨"users", "u"⟩ shopJoins)) shop).2) :=
    Prod.ext ht rfl
  exact ⟨t, _, hrun, (chain_resolves_columns (by decide) (by decide)
    (Setting.loadsBases_of_frames _ holdsFrames_shop)).2 t _ hrun⟩

end TableQuery
