import TableQuery.Proofs.Names
import TableQuery.Proofs.Tables

/-!
# The columns of a join

The helper columns that hold the keys of a join leave no trace. If no column of the two tables is
named as helpers are, the joined table has the columns of the left table and the renamed columns of
the right one, in their order; their cells come from pairs of rows, the same pairs for all of them.
-/

namespace TableQuery

open Name

namespace Table

/-- Every column has a cell in every row. -/
def IsRectangular (t : Table) : Prop :=
  ∀ c ∈ t.columns, c.cells.length = t.height

/-- No column is named as helpers are. -/
def HasOrdinaryNames (t : Table) : Prop :=
  ∀ name ∈ t.names, IsOrdinary name

/-- A table with helper columns behind its own. -/
structure HasHelpers (t s : Table) (extra : List Column) : Prop where
  columns : s.columns = t.columns ++ extra
  /-- A helper copies cells, and has a helper's name. -/
  helper : ∀ c ∈ extra, ¬IsOrdinary c.name ∧ ∃ d ∈ t.columns, c.cells = d.cells

theorem HasHelpers.refl (t : Table) : HasHelpers t t [] :=
  ⟨by simp, by simp⟩

/-- A further helper stands in the place of the one of its name, or behind the others. -/
theorem HasHelpers.put {t s : Table} {extra : List Column} (h : HasHelpers t s extra)
    (ht : t.HasOrdinaryNames) {c : Column} (hname : ¬IsOrdinary c.name)
    (hcells : ∃ d ∈ t.columns, c.cells = d.cells) :
    ∃ extra', HasHelpers t (s.put c) extra' := by
  unfold Table.put
  split
  · refine ⟨extra.map fun d => if d.name = c.name then c else d, ?_, ?_⟩
    · have own : t.columns.map (fun d => if d.name = c.name then c else d) = t.columns := by
        refine (List.map_congr_left fun d hd => if_neg ?_).trans (List.map_id _)
        intro e
        exact hname (e ▸ ht d.name (List.mem_map_of_mem hd))
      simp only [h.columns, List.map_append, own]
    · intro d hd
      obtain ⟨b, hb, rfl⟩ := List.mem_map.1 hd
      split
      · exact ⟨hname, hcells⟩
      · exact h.helper b hb
  · refine ⟨extra ++ [c], by simp [h.columns], ?_⟩
    intro d hd
    rcases List.mem_append.1 hd with hd | hd
    · exact h.helper d hd
    · obtain rfl := List.mem_singleton.1 hd
      exact ⟨hname, hcells⟩

theorem HasHelpers.cells {t s : Table} {extra : List Column} (h : HasHelpers t s extra)
    {c : Column} (hc : c ∈ s.columns) : ∃ d ∈ t.columns, c.cells = d.cells := by
  rw [h.columns] at hc
  rcases List.mem_append.1 hc with hc | hc
  · exact ⟨c, hc, rfl⟩
  · exact (h.helper c hc).2

theorem HasHelpers.height_eq {t s : Table} {extra : List Column} (h : HasHelpers t s extra) :
    s.height = t.height := by
  unfold Table.height
  rw [h.columns]
  cases ht : t.columns with
  | cons c cs => rfl
  | nil =>
    cases extra with
    | nil => rfl
    | cons c cs =>
      obtain ⟨-, d, hd, -⟩ := h.helper c List.mem_cons_self
      rw [ht] at hd
      cases hd

end Table

namespace Table

/-- Taking away helpers takes away no other column. -/
theorem HasHelpers.without {t s : Table} {extra : List Column} (h : HasHelpers t s extra)
    (ht : t.HasOrdinaryNames) {names : List String} (hnames : ∀ n ∈ names, ¬IsOrdinary n) :
    ∃ extra', HasHelpers t (s.without names) extra' := by
  refine ⟨extra.filter fun c => !names.contains c.name, ?_, ?_⟩
  · have own : t.columns.filter (fun c => !names.contains c.name) = t.columns := by
      refine List.filter_eq_self.2 fun c hc => ?_
      have : c.name ∉ names := fun hmem => hnames _ hmem (ht _ (List.mem_map_of_mem hc))
      simpa using this
    simp only [Table.without, h.columns, List.filter_append, own]
  · intro c hc
    exact h.helper c (List.mem_of_mem_filter hc)

end Table

namespace Eager

/-- Key columns are put behind the others under helper names. -/
theorem hasHelpers_withKeys {columns : List (String × String)} {t s : Table}
    (ht : t.HasOrdinaryNames) (hcolumns : ∀ c ∈ columns, ¬IsOrdinary c.2)
    (h : withKeys columns t = .ok s) : ∃ extra, t.HasHelpers s extra := by
  suffices go : ∀ {u extra}, t.HasHelpers u extra → withKeys columns u = .ok s →
      ∃ extra', t.HasHelpers s extra' from go (.refl t) h
  clear h
  induction columns with
  | nil =>
    intro u extra hu h
    cases h
    exact ⟨extra, hu⟩
  | cons column columns ih =>
    intro u extra hu h
    obtain ⟨v, hv, h⟩ := bind_eq_ok.1 h
    obtain ⟨c, hc, hv⟩ := bind_eq_ok.1 hv
    cases hv
    obtain ⟨hname, hcolumns⟩ := List.forall_mem_cons.1 hcolumns
    obtain ⟨hmem, -⟩ := Table.mem_of_column hc
    obtain ⟨d, hd, hcells⟩ := hu.cells hmem
    obtain ⟨extra', hextra'⟩ := hu.put ht (c := { c with name := column.2 }) hname ⟨d, hd, hcells⟩
    exact ih hcolumns hextra' h

end Eager

namespace JoinPlan

/-- The keys of the left table, with the helpers that they are copied to. -/
def leftCopies (p : JoinPlan) : List (String × String) :=
  p.numberedKeys.map fun (i, l, _) => (l, hiddenLeft i)

/-- The renamed keys of the right table, with the helpers that they are copied to. -/
def rightCopies (p : JoinPlan) (renames : List (String × String)) : List (String × String) :=
  p.numberedKeys.map fun (i, _, r) => (newName renames r, hiddenRight i)

/-- The pairs of helpers by which the tables are joined. -/
def copiedKeys (p : JoinPlan) : List (String × String) :=
  p.numberedKeys.map fun (i, _, _) => (hiddenLeft i, hiddenRight i)

theorem newName_map {columns : List String} {f : String → String} {c : String}
    (hc : c ∈ columns) : newName (columns.map fun d => (d, f d)) c = f c := by
  rw [newName, lookup_map_pair f hc]
  rfl

/-- The new names of joined columns, one for each. -/
theorem renamedRight_eq_ok {p : JoinPlan} {left right : List String}
    {renames : List (String × String)} (h : p.renamedRight left right = .ok renames) :
    renames = right.map (fun c => (c, newName renames c)) ∧
      ∀ c ∈ right, p.renamed left right c = .ok (newName renames c) := by
  let f (c : String) : String := (p.renamed left right c).toOption.getD c
  have hpairs := mapM_eq_ok.1 h
  have hmap : renames = right.map fun c => (c, f c) := by
    refine eq_map_of_forall₂ (hpairs.imp fun c r hr => ?_)
    obtain ⟨name, hname, hr⟩ := bind_eq_ok.1 hr
    cases hr
    simp [f, hname, Except.toOption]
  have hnew : ∀ c ∈ right, newName renames c = f c := by
    intro c hc
    rw [hmap]
    exact newName_map hc
  constructor
  · conv_lhs => rw [hmap]
    exact List.map_congr_left fun c hc => by rw [hnew c hc]
  · intro c hc
    rw [hnew c hc]
    obtain ⟨r, -, hr⟩ := exists_of_mem_left hpairs hc
    obtain ⟨name, hname, -⟩ := bind_eq_ok.1 hr
    simp [f, hname, Except.toOption]

/-- A joined column keeps its name if that is not taken. Otherwise it gets the alias of its table in
front, which may not be taken in either table. -/
theorem renamed_eq_ok_iff {p : JoinPlan} {left right : List String} {column name : String} :
    p.renamed left right column = .ok name ↔
      (column ∉ left ∧ name = column) ∨
        (column ∈ left ∧ name = qualify p.label column ∧ name ∉ left ∧ name ∉ right) := by
  unfold renamed
  by_cases hc : column ∈ left
  · by_cases hq : qualify p.label column ∈ left ∨ qualify p.label column ∈ right
    · have htaken : (left.contains (qualify p.label column) ||
          right.contains (qualify p.label column)) = true := by simpa using hq
      simp only [List.contains_iff_mem.2 hc, htaken, hc]
      simp only [Bool.not_true, Bool.false_eq_true, if_false, if_true, reduceCtorEq, not_true,
        false_and, true_and, false_or, false_iff]
      rintro ⟨rfl, hleft, hright⟩
      exact hq.elim hleft hright
    · have hfree : (left.contains (qualify p.label column) ||
          right.contains (qualify p.label column)) = false := by simpa using hq
      obtain ⟨hleft, hright⟩ := not_or.1 hq
      simp only [List.contains_iff_mem.2 hc, hfree, hc]
      simp only [Bool.not_true, Bool.false_eq_true, if_false, Except.ok.injEq, not_true, false_and,
        true_and, false_or]
      exact ⟨fun h => ⟨h.symm, h ▸ hleft, h ▸ hright⟩, fun h => h.1.symm⟩
  · have hnot : left.contains column = false := by simpa using hc
    simp [hc, eq_comm]

/-- A joined column keeps its name, or gets the alias of its table in front. -/
theorem renamed_eq_ok {p : JoinPlan} {left right : List String} {column name : String}
    (h : p.renamed left right column = .ok name) :
    name ∉ left ∧ (name = column ∨ name = qualify p.label column) := by
  rcases renamed_eq_ok_iff.1 h with ⟨hc, rfl⟩ | ⟨-, hname, hleft, -⟩
  · exact ⟨hc, .inl rfl⟩
  · exact ⟨hleft, .inr hname⟩

/-- The new names of joined columns are different if the old ones are. -/
theorem nodup_newNames {p : JoinPlan} {left right : List String}
    {renames : List (String × String)} (h : p.renamedRight left right = .ok renames)
    (hright : right.Nodup) : (right.map (newName renames)).Nodup := by
  obtain ⟨-, hnew⟩ := renamedRight_eq_ok h
  refine List.Nodup.map_on (fun c hc d hd heq => ?_) hright
  rcases renamed_eq_ok_iff.1 (hnew c hc) with ⟨-, hc'⟩ | ⟨-, hc', -, hfree⟩ <;>
    rcases renamed_eq_ok_iff.1 (hnew d hd) with ⟨-, hd'⟩ | ⟨-, hd', -, hfree'⟩
  · exact hc'.symm.trans (heq.trans hd')
  · rw [← heq, hc'] at hfree'
    exact absurd hc hfree'
  · rw [heq, hd'] at hfree
    exact absurd hd hfree
  · exact qualify_right_injective p.label (hc'.symm.trans (heq.trans hd'))

end JoinPlan

namespace Table

@[simp]
theorem names_rename (f : String → String) (t : Table) : (t.rename f).names = t.names.map f := by
  simp [rename, names]

@[simp]
theorem height_rename (f : String → String) (t : Table) : (t.rename f).height = t.height := by
  cases t with
  | mk columns => cases columns <;> rfl

/-- A table made of columns that are found in another one is a selection from it. -/
theorem select_of_columns {s : Table} {columns : List Column}
    (h : ∀ c ∈ columns, s.column c.name = .ok c) :
    s.select (columns.map Column.name) = .ok ⟨columns⟩ := by
  have hcolumns : (columns.map Column.name).mapM s.column = .ok columns := by
    rw [mapM_eq_ok, List.forall₂_map_left_iff, List.forall₂_same]
    exact h
  rw [select, hcolumns]
  rfl

end Table

namespace Table

/-- The columns of two tables, with cells from pairs of rows. -/
def paired (rows : List (Option Nat × Option Nat)) (left right : Table) : List Column :=
  left.columns.map (Column.take (rows.map Prod.fst)) ++
    right.columns.map (Column.take (rows.map Prod.snd))

@[simp]
theorem map_name_paired (rows : List (Option Nat × Option Nat)) (left right : Table) :
    (paired rows left right).map Column.name = left.names ++ right.names := by
  simp [paired, names, Function.comp_def, Column.take]

theorem length_cells_of_mem_paired {rows : List (Option Nat × Option Nat)} {left right : Table}
    {c : Column} (hc : c ∈ paired rows left right) : c.cells.length = rows.length := by
  rcases List.mem_append.1 hc with hc | hc <;>
  · obtain ⟨d, -, rfl⟩ := List.mem_map.1 hc
    simp [Column.take]

/-- Tables without columns have no rows to pair, so every pair of rows is a row of the joined table.
-/
theorem height_of_paired {mode : JoinMode} {related : Nat → Nat → Bool} {left right out : Table}
    (h : out.columns = paired (mode.pairs related left.height right.height) left right) :
    out.height = (mode.pairs related left.height right.height).length := by
  refine height_eq_of_cells (fun c hc => length_cells_of_mem_paired (h ▸ hc)) fun hnil => ?_
  rw [hnil] at h
  obtain ⟨hl, hr⟩ : left.columns = [] ∧ right.columns = [] := by simpa [paired] using h.symm
  have hleft : left.height = 0 := by rw [height, hl]
  have hright : right.height = 0 := by rw [height, hr]
  rw [hleft, hright]
  cases mode <;> rfl

/-- The two sides of a join, the one that is kept whole with its keys and the other one without. -/
def sides (mode : JoinMode) (on : List (String × String)) (left right : Table) : Table × Table :=
  match mode with
  | .right => (left.without (on.map Prod.fst), right)
  | _ => (left, right.without (on.map Prod.snd))

/-- What a join that succeeds gives, before the helpers are dropped. -/
theorem join_eq_ok {mode : JoinMode} {on : List (String × String)} {left right joined : Table}
    (h : join mode on left right = .ok joined) :
    ∃ keys, keyCells left right on = .ok keys ∧ joined.names.Nodup ∧
      joined.columns = paired (mode.pairs (related keys) left.height right.height)
        (sides mode on left right).1
        ((sides mode on left right).2.rename (freshName (sides mode on left right).1.names)) := by
  unfold join at h
  cases mode <;>
  · dsimp only at h
    split at h
    · cases h
    obtain ⟨keys, hkeys, h⟩ := bind_eq_ok.1 h
    obtain ⟨_, hdistinct, h⟩ := bind_eq_ok.1 h
    cases h
    exact ⟨keys, hkeys, distinct_eq_ok.1 hdistinct, rfl⟩

theorem freshName_of_not_mem {taken : List String} {name : String} (h : name ∉ taken) :
    freshName taken name = name := by
  simp [freshName, h]

/-- Among the columns of a join by helpers are those of the two tables, if no name of the right one
is taken. -/
theorem paired_sublist_join {mode : JoinMode} {on : List (String × String)}
    {left right l r joined : Table} {extra extra' : List Column} (hl : left.HasHelpers l extra)
    (hr : right.HasHelpers r extra') (hleft : left.HasOrdinaryNames)
    (hright : right.HasOrdinaryNames) (hnew : ∀ n ∈ right.names, n ∉ left.names)
    (hon : ∀ k ∈ on, ¬IsOrdinary k.1 ∧ ¬IsOrdinary k.2) (h : join mode on l r = .ok joined) :
    ∃ keys, keyCells l r on = .ok keys ∧
      (paired (mode.pairs (related keys) left.height right.height) left right).Sublist
        joined.columns ∧ joined.names.Nodup := by
  obtain ⟨keys, hkeys, hnodup, hcolumns⟩ := join_eq_ok h
  rw [hl.height_eq, hr.height_eq] at hcolumns
  refine ⟨keys, hkeys, ?_, hnodup⟩
  obtain ⟨own, own', hown, hown'⟩ : ∃ own own', left.HasHelpers (sides mode on l r).1 own ∧
      right.HasHelpers (sides mode on l r).2 own' := by
    obtain ⟨own, hown⟩ := hl.without hleft (List.forall_mem_map.2 fun k hk => (hon k hk).1)
    obtain ⟨own', hown'⟩ := hr.without hright (List.forall_mem_map.2 fun k hk => (hon k hk).2)
    cases mode with
    | right => exact ⟨own, _, hown, hr⟩
    | inner => exact ⟨_, own', hl, hown'⟩
    | left => exact ⟨_, own', hl, hown'⟩
  generalize (sides mode on l r).1 = l' at hcolumns hown
  generalize (sides mode on l r).2 = r' at hcolumns hown'
  have hfresh : right.columns.map (fun c => { c with name := freshName l'.names c.name }) =
      right.columns := by
    refine (List.map_congr_left fun c hc => ?_).trans (List.map_id _)
    have hmem : c.name ∈ right.names := List.mem_map_of_mem hc
    have hnot : c.name ∉ l'.names := by
      rw [names, hown.columns, List.map_append, List.mem_append, not_or]
      refine ⟨hnew _ hmem, fun hc' => ?_⟩
      obtain ⟨d, hd, he⟩ := List.mem_map.1 hc'
      exact (hown.helper d hd).1 (he ▸ hright _ hmem)
    simp [freshName_of_not_mem hnot]
  rw [hcolumns, paired]
  refine List.Sublist.append ?_ ?_
  · rw [hown.columns, List.map_append]
    exact List.sublist_append_left _ _
  · simp only [rename, hown'.columns, List.map_append, hfresh]
    exact List.sublist_append_left _ _

end Table

namespace Eager

/-- New names of ordinary columns are ordinary. -/
theorem hasOrdinaryNames_rename {p : JoinPlan} {left : List String} {right : Table}
    {renames : List (String × String)} (hr : right.HasOrdinaryNames)
    (hrenames : p.renamedRight left right.names = .ok renames) :
    (right.rename (JoinPlan.newName renames)).HasOrdinaryNames := by
  obtain ⟨-, hnew⟩ := JoinPlan.renamedRight_eq_ok hrenames
  intro name hname
  rw [Table.names_rename] at hname
  obtain ⟨c, hc, rfl⟩ := List.mem_map.1 hname
  rcases (JoinPlan.renamed_eq_ok (hnew c hc)).2 with e | e
  · rw [e]
    exact hr c hc
  · rw [e]
    exact isOrdinary_qualify _ _

/-- What is left of a join by helpers when these are dropped: the columns of the left table and the
renamed ones of the right table, with cells from pairs of rows. -/
theorem select_of_join {p : JoinPlan} {left right l r joined : Table}
    {renames : List (String × String)} (hl : left.HasOrdinaryNames) (hr : right.HasOrdinaryNames)
    (hrenames : p.renamedRight left.names right.names = .ok renames)
    (hwl : withKeys p.leftCopies left = .ok l)
    (hwr : withKeys (p.rightCopies renames) (right.rename (JoinPlan.newName renames)) = .ok r)
    (hjoined : Table.join p.mode p.copiedKeys l r = .ok joined) :
    ∃ keys, Table.keyCells l r p.copiedKeys = .ok keys ∧
      joined.select (left.names ++ renames.map Prod.snd) =
        .ok ⟨Table.paired (p.mode.pairs (Table.related keys) left.height right.height) left
          (right.rename (JoinPlan.newName renames))⟩ ∧
      ((Table.paired (p.mode.pairs (Table.related keys) left.height right.height) left
        (right.rename (JoinPlan.newName renames))).map Column.name).Nodup := by
  obtain ⟨hpairs, hnew⟩ := JoinPlan.renamedRight_eq_ok hrenames
  have hr' := hasOrdinaryNames_rename hr hrenames
  obtain ⟨_, hhl⟩ := hasHelpers_withKeys hl (by
    simp only [JoinPlan.leftCopies, List.forall_mem_map]
    exact fun _ _ => JoinPlan.not_isOrdinary_hiddenLeft _) hwl
  obtain ⟨_, hhr⟩ := hasHelpers_withKeys hr' (by
    simp only [JoinPlan.rightCopies, List.forall_mem_map]
    exact fun _ _ => JoinPlan.not_isOrdinary_hiddenRight _) hwr
  obtain ⟨keys, hkeys, hsublist, hnodup⟩ := Table.paired_sublist_join hhl hhr hl hr' (by
    intro name hname
    rw [Table.names_rename] at hname
    obtain ⟨c, hc, rfl⟩ := List.mem_map.1 hname
    exact (JoinPlan.renamed_eq_ok (hnew c hc)).1) (by
    simp only [JoinPlan.copiedKeys, List.forall_mem_map]
    exact fun _ _ =>
      ⟨JoinPlan.not_isOrdinary_hiddenLeft _, JoinPlan.not_isOrdinary_hiddenRight _⟩) hjoined
  rw [Table.height_rename] at hsublist
  have hnames : left.names ++ renames.map Prod.snd = (Table.paired
      (p.mode.pairs (Table.related keys) left.height right.height) left
      (right.rename (JoinPlan.newName renames))).map Column.name := by
    rw [Table.map_name_paired, Table.names_rename]
    conv_lhs => rw [hpairs]
    simp
  refine ⟨keys, hkeys, ?_, (hsublist.map Column.name).nodup hnodup⟩
  rw [hnames]
  exact Table.select_of_columns fun c hc => Table.column_of_mem hnodup (hsublist.subset hc)

/-- The columns of a join are those of the left table and the renamed ones of the right table, with
cells from pairs of rows. -/
theorem columns_of_join {p : JoinPlan} {left right out : Table} (hl : left.HasOrdinaryNames)
    (hr : right.HasOrdinaryNames) (h : join p left right = .ok out) :
    ∃ renames related, p.renamedRight left.names right.names = .ok renames ∧
      out.columns = Table.paired (p.mode.pairs related left.height right.height) left
        (right.rename (JoinPlan.newName renames)) ∧
      out.names.Nodup := by
  obtain ⟨renames, hrenames, h⟩ := bind_eq_ok.1 h
  obtain ⟨l, hwl, h⟩ := bind_eq_ok.1 h
  obtain ⟨r, hwr, h⟩ := bind_eq_ok.1 h
  obtain ⟨joined, hjoined, hselect⟩ := bind_eq_ok.1 h
  obtain ⟨keys, -, hcolumns, hnodup⟩ := select_of_join hl hr hrenames hwl hwr hjoined
  rw [hcolumns] at hselect
  cases hselect
  exact ⟨renames, Table.related keys, hrenames, rfl, hnodup⟩

end Eager

end TableQuery
