import TableQuery.Proofs.ComputedCells
import TableQuery.Proofs.JoinChain
import TableQuery.Proofs.ProjectedRows

/-!
# What helper columns do to other columns

Computed group keys, computed sort keys and the keys of a join are put into columns for a while: the
first under the texts of the keys, the others under names that begin with `__fq_`. A column of a
table that has such a name already gives way to the helper. So a table keeps its columns just as far
as none of them is named like a helper, or the helper has the same cells.
-/

namespace TableQuery

namespace Table

variable {t : Table} {c : Column}

/-- A column with a cell in every row can be put into a table. -/
theorem isRectangular_put (ht : t.IsRectangular) (hc : c.cells.length = t.height) :
    (t.put c).IsRectangular ∧ (t.put c).height = t.height := by
  unfold put
  split
  · next hmem =>
    refine isRectangular_of_length ?_ fun d hd => ?_
    · intro hnil
      have hmem : c.name ∈ t.names := List.contains_iff_mem.1 hmem
      rw [names, List.map_eq_nil_iff.1 hnil] at hmem
      cases hmem
    · obtain ⟨b, hb, rfl⟩ := List.mem_map.1 hd
      split
      · exact hc
      · exact ht b hb
  · refine isRectangular_of_length (by simp) fun d hd => ?_
    rcases List.mem_append.1 hd with hd | hd
    · exact ht d hd
    · rw [List.mem_singleton.1 hd, hc]

theorem mem_names_put {name : String} : name ∈ (t.put c).names ↔ name ∈ t.names ∨ name = c.name := by
  rw [names_put, putName]
  split
  · next hmem =>
    have hmem : c.name ∈ t.names := List.contains_iff_mem.1 hmem
    exact ⟨.inl, fun h => h.elim id fun e => e ▸ hmem⟩
  · simp

theorem IsRectangular.rename (ht : t.IsRectangular) (f : String → String) :
    (t.rename f).IsRectangular := by
  intro d hd
  obtain ⟨c, hc, rfl⟩ := List.mem_map.1 hd
  rw [height_rename]
  exact ht c hc

theorem column_take (rows : List Nat) (name : String) :
    (t.take rows).column name = (t.column name).map (Column.take (rows.map some)) :=
  column_map (f := Column.take (rows.map some)) (fun _ => rfl) name

/-- What is selected is found under the names by which it is selected. -/
theorem column_select {names : List String} {s : Table} (h : t.select names = .ok s) {name : String}
    (hname : name ∈ names) : s.column name = t.column name := by
  obtain ⟨columns⟩ := s
  have hcolumns : List.Forall₂ (fun name c => t.column name = .ok c) names columns :=
    select_eq_ok h
  clear h
  induction hcolumns with
  | nil => cases hname
  | @cons n c names columns hc _ ih =>
    by_cases hn : n = name
    · subst hn
      rw [hc]
      simp [column, column_name hc]
    · have hmem : name ∈ names := (List.mem_cons.1 hname).resolve_left (Ne.symm hn)
      rw [← ih hmem]
      simp [column, column_name hc, hn]

end Table

/-! ## Computed columns -/

/-- A list that has an element has a last one with its name. -/
theorem exists_last {α : Type} {items : List (String × α)} {name : String}
    (h : name ∈ items.map Prod.fst) :
    ∃ before x behind, items = before ++ (name, x) :: behind ∧ name ∉ behind.map Prod.fst := by
  induction items with
  | nil => cases h
  | cons i items ih =>
    by_cases hmem : name ∈ items.map Prod.fst
    · obtain ⟨before, x, behind, rfl, hbehind⟩ := ih hmem
      exact ⟨i :: before, x, behind, rfl, hbehind⟩
    · obtain rfl : name = i.1 := (List.mem_cons.1 h).resolve_right hmem
      exact ⟨[], i.2, items, rfl, hmem⟩

namespace Eager

variable {fs : Functions} {t out : Table} {items : List (String × Expr)}

/-- Added columns have a cell in every row, and leave all names. -/
theorem isRectangular_extend (ht : t.IsRectangular) (h : extend fs items t = .ok out) :
    out.IsRectangular ∧ out.height = t.height := by
  induction items generalizing t with
  | nil =>
    cases h
    exact ⟨ht, rfl⟩
  | cons i items ih =>
    obtain ⟨u, hu, h⟩ := bind_eq_ok.1 h
    obtain ⟨c, hc, hu⟩ := bind_eq_ok.1 hu
    cases hu
    obtain ⟨hput, hheight⟩ := Table.isRectangular_put ht (length_cells_computed hc)
    obtain ⟨hout, hheight'⟩ := ih hput h
    exact ⟨hout, hheight'.trans hheight⟩

theorem mem_names_extend (h : extend fs items t = .ok out) {name : String} (hname : name ∈ t.names) :
    name ∈ out.names := by
  induction items generalizing t with
  | nil =>
    cases h
    exact hname
  | cons i items ih =>
    obtain ⟨u, hu, h⟩ := bind_eq_ok.1 h
    obtain ⟨c, hc, hu⟩ := bind_eq_ok.1 hu
    cases hu
    exact ih h (Table.mem_names_put.2 (.inl hname))

/-- Computed columns spare a column if the last one that is put in its place, if there is one, is
the same column. -/
def Spares (fs : Functions) (items : List (String × Expr)) (t : Table) (c : Column) : Prop :=
  ∀ before e behind u, items = before ++ (c.name, e) :: behind → c.name ∉ behind.map Prod.fst →
    extend fs before t = .ok u → computed fs c.name e u = .ok c

theorem spares_of_not_mem {c : Column} (h : c.name ∉ items.map Prod.fst) : Spares fs items t c := by
  rintro before e behind u rfl - -
  exact absurd (by simp) h

/-- A table keeps the columns that the computed ones spare. -/
theorem column_extend_iff {c : Column} (hc : t.column c.name = .ok c)
    (h : extend fs items t = .ok out) : out.column c.name = .ok c ↔ Spares fs items t c := by
  refine ⟨fun hout before e behind u hitems hbehind hu => ?_, fun hspares => ?_⟩
  · subst hitems
    obtain ⟨u', d, hu', hd, hcolumn⟩ := exists_computed_of_extend h
    obtain rfl : u = u' := Except.ok.inj (hu.symm.trans hu')
    rw [hd, ← hcolumn hbehind, hout]
  · by_cases hname : c.name ∈ items.map Prod.fst
    · obtain ⟨before, e, behind, hitems, hbehind⟩ := exists_last hname
      subst hitems
      obtain ⟨u, d, hu, hd, hcolumn⟩ := exists_computed_of_extend h
      rw [hcolumn hbehind, ← hd]
      exact hspares before e behind u rfl hbehind hu
    · rw [column_extend h hname, hc]

end Eager

/-! ## Sorted rows -/

theorem perm_insertBack {α : Type} (order : α → α → Ordering) (x : α) (xs : List α) :
    (insertBack order x xs).Perm (x :: xs) := by
  induction xs with
  | nil => rfl
  | cons y ys ih =>
    unfold insertBack
    split
    · exact (ih.cons y).trans (.swap x y ys)
    · rfl

theorem perm_stableSort {α : Type} (order : α → α → Ordering) (xs : List α) :
    (stableSort order xs).Perm xs := by
  suffices go : ∀ done : List α, (xs.foldl (fun done x => insertBack order x done) done).Perm
      (xs ++ done) by
    have hall := go []
    rw [List.append_nil] at hall
    exact (List.reverse_perm _).trans hall
  induction xs with
  | nil => exact fun done => .refl _
  | cons x xs ih =>
    intro done
    rw [List.foldl_cons]
    exact (ih _).trans (((perm_insertBack order x done).append_left xs).trans List.perm_middle)

/-- Sorting a table puts its rows into another order. -/
theorem Eager.exists_perm_of_sort {keys : List (String × Bool)} {t out : Table}
    (h : sort keys t = .ok out) :
    ∃ rows : List Nat, rows.Perm (List.range t.height) ∧ out = t.take rows := by
  obtain ⟨values, -, h⟩ := bind_eq_ok.1 h
  cases h
  exact ⟨_, perm_stableSort _ _, rfl⟩

/-- Columns with the same cells in another order of the rows are the same. -/
theorem Column.eq_of_take_perm {rows : List Nat} {n : Nat} (hrows : rows.Perm (List.range n))
    {c d : Column} (hc : c.cells.length = n) (hd : d.cells.length = n)
    (h : c.take (rows.map some) = d.take (rows.map some)) : c = d := by
  obtain ⟨name, type, cells⟩ := c
  obtain ⟨name', type', cells'⟩ := d
  simp only [take, mk.injEq, List.map_map, List.map_inj_left] at h
  obtain ⟨rfl, rfl, hcells⟩ := h
  refine congrArg (Column.mk name type) (List.ext_getElem (hc.trans hd.symm) fun i hi hi' => ?_)
  have hmem : i ∈ rows := hrows.mem_iff.2 (List.mem_range.2 (hc ▸ hi))
  simpa [hi, hi'] using hcells i hmem

/-! ## Groups and orders -/

namespace Setting

/-- The group keys that are computed, each with the column that holds it. -/
def computedKeys (keys : List Item) : List (String × Expr) :=
  (keys.filter fun key => key.expr.asColumn?.isNone).map fun key => (key.label, key.expr)

/-- The sort keys that are computed, each with the column that holds it. -/
def computedOrder (columns : List String) (items : List OrderItem) : List (String × Expr) :=
  ((items.zipIdx.map fun (o, i) => (o, i, orderColumn? columns o.item)).filter
    fun (_, _, column) => column.isNone).map fun (o, i, _) => (orderHelper i, o.item.expr)

/-- The columns by which an order sorts, each with its direction. -/
def orderNames (columns : List String) (items : List OrderItem) : List (String × Bool) :=
  items.zipIdx.map fun (o, i) => ((orderColumn? columns o.item).getD (orderHelper i), !o.ascending)

theorem map_orderColumn? (columns : List String) (items : List OrderItem) :
    (items.zipIdx.map fun (o, i) => (o, i, orderColumn? columns o.item)).map
      (fun (o, i, column) => (column.getD (orderHelper i), !o.ascending)) =
        orderNames columns items := by
  rw [List.map_map]
  rfl

variable {fs : Functions} {r : Relation} {t : Table} {w : Working}

/-- A grouping adds the computed keys. -/
theorem exists_extend_of_group (hr : r.collect = .ok t) {keys projection : List Item}
    (h : group ⟨.eager, fs⟩ (.plain r) keys projection = .ok w) :
    ∃ out, w.table.collect = .ok out ∧ Eager.extend fs (computedKeys keys) t = .ok out := by
  obtain ⟨r', hplain, h⟩ := bind_eq_ok.1 h
  cases hplain
  obtain ⟨columns, -, h⟩ := bind_eq_ok.1 h
  obtain ⟨resolved, -, h⟩ := bind_eq_ok.1 h
  obtain ⟨slots, -, h⟩ := bind_eq_ok.1 h
  change (do
    let r' ← if (computedKeys keys).isEmpty then pure r
      else Engine.eager.extend fs (computedKeys keys) r
    return (⟨r', some resolved⟩ : Working)) = .ok w at h
  split at h
  · next hempty =>
    cases h
    rw [List.isEmpty_iff.1 hempty]
    exact ⟨t, hr, rfl⟩
  · obtain ⟨r', hextend, h⟩ := bind_eq_ok.1 h
    cases h
    obtain ⟨t', ht', hextend⟩ := bind_eq_ok.1 hextend
    obtain rfl : t = t' := Except.ok.inj (hr.symm.trans ht')
    obtain ⟨out, hout, hextend⟩ := bind_eq_ok.1 hextend
    cases hextend
    exact ⟨out, rfl, hout⟩

/-- An order adds the computed keys, sorts by all keys, and, if there are computed ones, selects the
columns that were there before. -/
theorem steps_of_order (hr : r.collect = .ok t) {items : List OrderItem}
    (h : order ⟨.eager, fs⟩ (.plain r) items = .ok w) :
    ∃ extended sorted out, Eager.extend fs (computedOrder t.names items) t = .ok extended ∧
      Eager.sort (orderNames t.names items) extended = .ok sorted ∧
      (extended = t ∧ sorted = out ∨ sorted.select t.names = .ok out) ∧
      w = .plain (.frame out) := by
  obtain ⟨r', hplain, h⟩ := bind_eq_ok.1 h
  cases hplain
  obtain ⟨columns, hcolumns, h⟩ := bind_eq_ok.1 h
  obtain rfl := Relation.names_of_collect hcolumns hr
  dsimp only at h
  rw [map_orderColumn?] at h
  split at h
  · next hempty =>
    have hnone : computedOrder t.names items = [] := List.isEmpty_iff.1 hempty
    obtain ⟨r', hsort, h⟩ := bind_eq_ok.1 h
    cases h
    obtain ⟨t', ht', hsort⟩ := bind_eq_ok.1 hsort
    obtain rfl : t = t' := Except.ok.inj (hr.symm.trans ht')
    obtain ⟨sorted, hsorted, hsort⟩ := bind_eq_ok.1 hsort
    cases hsort
    rw [hnone]
    exact ⟨t, sorted, sorted, rfl, hsorted, .inl ⟨rfl, rfl⟩, rfl⟩
  · obtain ⟨r₁, hextend, h⟩ := bind_eq_ok.1 h
    obtain ⟨r₂, hsort, h⟩ := bind_eq_ok.1 h
    obtain ⟨r₃, hselect, h⟩ := bind_eq_ok.1 h
    cases h
    obtain ⟨t', ht', hextend⟩ := bind_eq_ok.1 hextend
    obtain rfl : t = t' := Except.ok.inj (hr.symm.trans ht')
    obtain ⟨extended, hextended, hextend⟩ := bind_eq_ok.1 hextend
    cases hextend
    obtain ⟨_, hcollect, hsort⟩ := bind_eq_ok.1 hsort
    cases hcollect
    obtain ⟨sorted, hsorted, hsort⟩ := bind_eq_ok.1 hsort
    cases hsort
    obtain ⟨_, hcollect, hselect⟩ := bind_eq_ok.1 hselect
    cases hcollect
    obtain ⟨out, hout, hselect⟩ := bind_eq_ok.1 hselect
    cases hselect
    exact ⟨extended, sorted, out, hextended, hsorted, .inr hout, rfl⟩

/-- An order puts the rows of the columns and of the computed keys into another order. -/
theorem exists_sort_of_order (hr : r.collect = .ok t) (ht : t.IsRectangular)
    {items : List OrderItem}
    (h : order ⟨.eager, fs⟩ (.plain r) items = .ok w) :
    ∃ out extended rows, w.table.collect = .ok out ∧
      Eager.extend fs (computedOrder t.names items) t = .ok extended ∧
      rows.Perm (List.range t.height) ∧
      ∀ name ∈ t.names, out.column name = (extended.take rows).column name := by
  obtain ⟨extended, sorted, out, hextended, hsorted, hout, rfl⟩ := steps_of_order hr h
  obtain ⟨rows, hrows, rfl⟩ := Eager.exists_perm_of_sort hsorted
  rw [(Eager.isRectangular_extend ht hextended).2] at hrows
  refine ⟨out, extended, rows, rfl, hextended, hrows, fun _ hname => ?_⟩
  rcases hout with ⟨-, rfl⟩ | hout
  · rfl
  · exact Table.column_select hout hname

end Setting

/-! ## Joins -/

namespace Eager

variable {columns : List (String × String)} {t s : Table}

/-- Columns of other names stay as they are when keys are put under their helper names. -/
theorem column_withKeys (h : withKeys columns t = .ok s) {name : String}
    (hname : name ∉ columns.map Prod.snd) : s.column name = t.column name := by
  induction columns generalizing t with
  | nil =>
    cases h
    rfl
  | cons column columns ih =>
    obtain ⟨u, hu, h⟩ := bind_eq_ok.1 h
    obtain ⟨c, hc, hu⟩ := bind_eq_ok.1 hu
    cases hu
    obtain ⟨hne, hname⟩ := not_or.1 (mt List.mem_cons.2 hname)
    rw [ih h hname, Table.column_put, if_neg hne]

theorem mem_names_withKeys (h : withKeys columns t = .ok s) {name : String} :
    name ∈ s.names ↔ name ∈ t.names ∨ name ∈ columns.map Prod.snd := by
  induction columns generalizing t with
  | nil =>
    cases h
    simp
  | cons column columns ih =>
    obtain ⟨u, hu, h⟩ := bind_eq_ok.1 h
    obtain ⟨c, hc, hu⟩ := bind_eq_ok.1 hu
    cases hu
    rw [ih h, Table.mem_names_put, List.map_cons, List.mem_cons, or_assoc]

theorem isRectangular_withKeys (ht : t.IsRectangular) (h : withKeys columns t = .ok s) :
    s.IsRectangular ∧ s.height = t.height := by
  induction columns generalizing t with
  | nil =>
    cases h
    exact ⟨ht, rfl⟩
  | cons column columns ih =>
    obtain ⟨u, hu, h⟩ := bind_eq_ok.1 h
    obtain ⟨c, hc, hu⟩ := bind_eq_ok.1 hu
    cases hu
    obtain ⟨hput, hheight⟩ := Table.isRectangular_put (c := { c with name := column.2 }) ht
      (ht c (Table.mem_of_column hc).1)
    obtain ⟨hs, hheight'⟩ := ih hput h
    exact ⟨hs, hheight'.trans hheight⟩

end Eager

namespace JoinPlan

variable (p : JoinPlan)

/-- The names of the helpers that hold the keys of the left table. -/
def leftHelpers : List String :=
  p.copiedKeys.map Prod.fst

/-- The names of the helpers that hold the keys of the right table. -/
def rightHelpers : List String :=
  p.copiedKeys.map Prod.snd

theorem map_snd_leftCopies : p.leftCopies.map Prod.snd = p.leftHelpers := by
  simp [leftHelpers, leftCopies, copiedKeys, Function.comp_def]

theorem map_snd_rightCopies (renames : List (String × String)) :
    (p.rightCopies renames).map Prod.snd = p.rightHelpers := by
  simp [rightHelpers, rightCopies, copiedKeys, Function.comp_def]

variable {p} {name : String}

theorem not_mem_rightHelpers (h : name ∈ p.leftHelpers) : name ∉ p.rightHelpers := by
  intro hmem
  simp only [leftHelpers, rightHelpers, copiedKeys, List.map_map, List.mem_map,
    Function.comp_apply] at h hmem
  obtain ⟨k, -, rfl⟩ := h
  obtain ⟨k', -, heq⟩ := hmem
  exact hiddenLeft_ne_hiddenRight _ _ heq.symm

/-- The names of helpers have no ending. -/
theorem not_mem_toList_helper (h : name ∈ p.leftHelpers ∨ name ∈ p.rightHelpers) :
    'h' ∉ name.toList := by
  simp only [leftHelpers, rightHelpers, copiedKeys, List.map_map, List.mem_map,
    Function.comp_apply] at h
  rcases h with ⟨k, -, rfl⟩ | ⟨k, -, rfl⟩
  · rw [toList_hiddenLeft, List.mem_append]
    exact fun h => h.elim (by decide) (Name.not_mem_toString rfl _)
  · rw [toList_hiddenRight, List.mem_append]
    exact fun h => h.elim (by decide) (Name.not_mem_toString rfl _)

end JoinPlan

namespace Table

variable {left right joined : Table} {rows : List (Option Nat × Option Nat)}

/-- A name without the ending for names that are taken has not got it. -/
theorem freshName_eq {taken : List String} {name fresh : String} (hfresh : 'h' ∉ fresh.toList)
    (h : freshName taken name = fresh) : name = fresh ∧ name ∉ taken := by
  unfold freshName at h
  split at h
  · rw [← h, String.toList_append, List.mem_append] at hfresh
    exact absurd (.inr (by decide)) hfresh
  · next hnot => exact ⟨h, by simpa using hnot⟩

theorem sides_of_ne {mode : JoinMode} (h : mode ≠ .right) (on : List (String × String))
    (left right : Table) : sides mode on left right = (left, right.without (on.map Prod.snd)) := by
  cases mode <;> first | rfl | exact absurd rfl h

theorem mem_without {names : List String} {c : Column} (hc : c ∈ left.columns)
    (hname : c.name ∉ names) : c ∈ (left.without names).columns :=
  List.mem_filter.2 ⟨hc, by simpa using hname⟩

theorem mem_names_without {names : List String} {name : String}
    (h : name ∈ (left.without names).names) : name ∈ left.names ∧ name ∉ names := by
  rw [names_without, List.mem_filter] at h
  exact ⟨h.1, by simpa using h.2⟩

theorem column_paired_left (hnodup : joined.names.Nodup)
    (h : joined.columns = paired rows left (right.rename (freshName left.names))) {d : Column}
    (hd : d ∈ left.columns) : joined.column d.name = .ok (d.take (rows.map Prod.fst)) := by
  refine column_of_mem (c := d.take (rows.map Prod.fst)) hnodup ?_
  rw [h]
  exact List.mem_append_left _ (List.mem_map_of_mem hd)

theorem column_paired_right (hnodup : joined.names.Nodup)
    (h : joined.columns = paired rows left (right.rename (freshName left.names))) {d : Column}
    (hd : d ∈ right.columns) (hfree : d.name ∉ left.names) :
    joined.column d.name = .ok (d.take (rows.map Prod.snd)) := by
  refine column_of_mem (c := d.take (rows.map Prod.snd)) hnodup ?_
  rw [h]
  refine List.mem_append_right _ (List.mem_map.2 ⟨_, List.mem_map_of_mem hd, ?_⟩)
  rw [freshName_of_not_mem hfree]

/-- A name without the ending is that of a column of either side. -/
theorem mem_names_paired
    (h : joined.columns = paired rows left (right.rename (freshName left.names))) {name : String}
    (hname : name ∈ joined.names) (hfresh : 'h' ∉ name.toList) :
    name ∈ left.names ∨ name ∈ right.names := by
  rw [names, h, map_name_paired, names_rename] at hname
  rcases List.mem_append.1 hname with hname | hname
  · exact .inl hname
  · obtain ⟨n, hn, hfreshName⟩ := List.mem_map.1 hname
    exact .inr ((freshName_eq hfresh hfreshName).1 ▸ hn)

/-- Helpers spare a column with cells in some rows, if the helper in its place has the same ones. -/
def HelpersSpare (s : Table) (helpers : List String) (rows : List (Option Nat)) (taken : Column) :
    Prop :=
  taken.name ∈ helpers → ∃ d, s.column taken.name = .ok d ∧ d.take rows = taken

/-- Where a joined column has the cells of what stands under its name, it has its own cells just if
the helpers spare it. -/
theorem column_eq_iff_helpersSpare {s : Table} {helpers : List String} {rows : List (Option Nat)}
    {d : Column} (taken : Column) (hd : s.column taken.name = .ok d)
    (hjoined : joined.column taken.name = .ok (d.take rows))
    (hfree : taken.name ∉ helpers → d.take rows = taken) :
    joined.column taken.name = .ok taken ↔ s.HelpersSpare helpers rows taken := by
  rw [hjoined, Except.ok.injEq]
  refine ⟨fun h _ => ⟨d, hd, h⟩, fun h => ?_⟩
  by_cases hmem : taken.name ∈ helpers
  · obtain ⟨d', hd', htake⟩ := h hmem
    rw [hd] at hd'
    cases hd'
    exact htake
  · exact hfree hmem

end Table

namespace Eager

variable {p : JoinPlan} {left right l r joined out : Table} {renames : List (String × String)}
  {rows : List (Option Nat × Option Nat)}

section

variable (hrenames : p.renamedRight left.names right.names = .ok renames)
  (hl : withKeys p.leftCopies left = .ok l)
  (hr : withKeys (p.rightCopies renames) (right.rename (JoinPlan.newName renames)) = .ok r)
  (hnodup : joined.names.Nodup)
  (hcolumns : joined.columns = Table.paired rows (Table.sides p.mode p.copiedKeys l r).1
    ((Table.sides p.mode p.copiedKeys l r).2.rename
      (Table.freshName (Table.sides p.mode p.copiedKeys l r).1.names)))

include hrenames in
theorem not_mem_left_of_renamed {name : String}
    (hname : name ∈ (right.rename (JoinPlan.newName renames)).names) : name ∉ left.names := by
  rw [Table.names_rename] at hname
  obtain ⟨c, hc, rfl⟩ := List.mem_map.1 hname
  exact (JoinPlan.renamed_eq_ok ((JoinPlan.renamedRight_eq_ok hrenames).2 c hc)).1

include hrenames hl hr hnodup hcolumns

/-- A joined column of the left table has its own cells just if the helpers spare it. -/
theorem left_column_iff (hleft : left.names.Nodup) {c : Column} (hc : c ∈ left.columns)
    (hmem : c.name ∈ joined.names) :
    joined.column c.name = .ok (c.take (rows.map Prod.fst)) ↔
      l.HelpersSpare p.leftHelpers (rows.map Prod.fst) (c.take (rows.map Prod.fst)) := by
  have hname : c.name ∈ left.names := List.mem_map_of_mem hc
  obtain ⟨d, hd⟩ := Table.exists_column_of_mem ((mem_names_withKeys hl).2 (.inl hname))
  obtain ⟨hdmem, hdname⟩ := Table.mem_of_column hd
  have hside : d ∈ (Table.sides p.mode p.copiedKeys l r).1.columns := by
    by_cases hmode : p.mode = .right
    · rw [hmode] at hcolumns ⊢
      have hkept : d.name ∉ p.leftHelpers := by
        intro hhelper
        rw [hdname] at hhelper
        rcases Table.mem_names_paired hcolumns hmem
          (JoinPlan.not_mem_toList_helper (.inl hhelper)) with hside | hside
        · exact (Table.mem_names_without hside).2 hhelper
        · rcases (mem_names_withKeys hr).1 hside with hside | hside
          · exact not_mem_left_of_renamed hrenames hside hname
          · rw [JoinPlan.map_snd_rightCopies] at hside
            exact JoinPlan.not_mem_rightHelpers hhelper hside
      exact Table.mem_without hdmem hkept
    · rw [Table.sides_of_ne hmode]
      exact hdmem
  have hjoined := Table.column_paired_left hnodup hcolumns hside
  rw [hdname] at hjoined
  refine Table.column_eq_iff_helpersSpare (c.take (rows.map Prod.fst)) hd hjoined fun h => ?_
  rw [← JoinPlan.map_snd_leftCopies] at h
  have hkept : l.column c.name = left.column c.name := column_withKeys hl h
  rw [hd, Table.column_of_mem hleft hc] at hkept
  rw [Except.ok.inj hkept]

/-- A joined column of the right table has its own cells just if the helpers spare it: those of its
own table if that is kept whole, and else those of the left table. -/
theorem right_column_iff (hright : right.names.Nodup) {c : Column}
    (hc : c ∈ (right.rename (JoinPlan.newName renames)).columns) (hmem : c.name ∈ joined.names) :
    joined.column c.name = .ok (c.take (rows.map Prod.snd)) ↔
      if p.mode = .right then
        r.HelpersSpare p.rightHelpers (rows.map Prod.snd) (c.take (rows.map Prod.snd))
      else l.HelpersSpare p.leftHelpers (rows.map Prod.fst) (c.take (rows.map Prod.snd)) := by
  have hname : c.name ∈ (right.rename (JoinPlan.newName renames)).names := List.mem_map_of_mem hc
  have hnot := not_mem_left_of_renamed hrenames hname
  have hnames : (right.rename (JoinPlan.newName renames)).names.Nodup := by
    rw [Table.names_rename]
    exact JoinPlan.nodup_newNames hrenames hright
  have hown (hfree : c.name ∉ p.rightHelpers) : r.column c.name = .ok c := by
    rw [← JoinPlan.map_snd_rightCopies p renames] at hfree
    rw [column_withKeys hr hfree, Table.column_of_mem hnames hc]
  by_cases hmode : p.mode = .right
  · rw [hmode] at hcolumns
    rw [if_pos hmode]
    obtain ⟨d, hd⟩ := Table.exists_column_of_mem ((mem_names_withKeys hr).2 (.inl hname))
    obtain ⟨hdmem, hdname⟩ := Table.mem_of_column hd
    have hfree : d.name ∉ (l.without (p.copiedKeys.map Prod.fst)).names := by
      intro hside
      obtain ⟨hside, hhelper⟩ := Table.mem_names_without hside
      rw [hdname] at hside hhelper
      rw [mem_names_withKeys hl, JoinPlan.map_snd_leftCopies] at hside
      exact hside.elim hnot hhelper
    have hjoined := Table.column_paired_right hnodup hcolumns hdmem hfree
    rw [hdname] at hjoined
    refine Table.column_eq_iff_helpersSpare (c.take (rows.map Prod.snd)) hd hjoined
      fun h => ?_
    have hkept := hown h
    rw [hd] at hkept
    rw [Except.ok.inj hkept]
  · rw [if_neg hmode]
    rw [Table.sides_of_ne hmode] at hcolumns
    by_cases hhelper : c.name ∈ p.leftHelpers
    · rw [← JoinPlan.map_snd_leftCopies] at hhelper
      obtain ⟨d, hd⟩ := Table.exists_column_of_mem ((mem_names_withKeys hl).2 (.inr hhelper))
      obtain ⟨hdmem, hdname⟩ := Table.mem_of_column hd
      have hjoined := Table.column_paired_left hnodup hcolumns hdmem
      rw [hdname] at hjoined
      rw [JoinPlan.map_snd_leftCopies] at hhelper
      exact Table.column_eq_iff_helpersSpare (c.take (rows.map Prod.snd)) hd hjoined
        fun h => absurd hhelper h
    · have hfree : c.name ∉ l.names := by
        rw [mem_names_withKeys hl, JoinPlan.map_snd_leftCopies]
        exact fun h => h.elim hnot hhelper
      have hkept : c.name ∉ p.rightHelpers := by
        intro hhelper'
        rcases Table.mem_names_paired hcolumns hmem
          (JoinPlan.not_mem_toList_helper (.inr hhelper')) with hside | hside
        · exact hfree hside
        · exact (Table.mem_names_without hside).2 hhelper'
      have hcmem : c ∈ r.columns := (Table.mem_of_column (hown hkept)).1
      have hjoined := Table.column_paired_right hnodup hcolumns (Table.mem_without hcmem hkept) hfree
      exact iff_of_true hjoined fun h => absurd h hhelper

end

/-- What a join leaves of the columns of its tables: each has its own cells, in the rows of the
pairs, just if the helpers spare it. -/
structure SparesColumns (p : JoinPlan) (left right out : Table) (renames : List (String × String))
    (l r : Table) (rows : List (Option Nat × Option Nat)) : Prop where
  renamed : p.renamedRight left.names right.names = .ok renames
  leftKeys : withKeys p.leftCopies left = .ok l
  rightKeys : withKeys (p.rightCopies renames) (right.rename (JoinPlan.newName renames)) = .ok r
  pairs : ∃ related, rows = p.mode.pairs related left.height right.height
  names : out.names = left.names ++ (right.rename (JoinPlan.newName renames)).names
  leftColumn : ∀ c ∈ left.columns, out.column c.name = .ok (c.take (rows.map Prod.fst)) ↔
    l.HelpersSpare p.leftHelpers (rows.map Prod.fst) (c.take (rows.map Prod.fst))
  rightColumn : ∀ c ∈ (right.rename (JoinPlan.newName renames)).columns,
    out.column c.name = .ok (c.take (rows.map Prod.snd)) ↔
      if p.mode = .right then
        r.HelpersSpare p.rightHelpers (rows.map Prod.snd) (c.take (rows.map Prod.snd))
      else l.HelpersSpare p.leftHelpers (rows.map Prod.fst) (c.take (rows.map Prod.snd))

theorem exists_sparesColumns (hleft : left.names.Nodup) (hright : right.names.Nodup)
    (hrectLeft : left.IsRectangular) (hrectRight : right.IsRectangular)
    (h : join p left right = .ok out) :
    ∃ renames l r rows, SparesColumns p left right out renames l r rows := by
  obtain ⟨renames, hrenames, h⟩ := bind_eq_ok.1 h
  obtain ⟨l, hl, h⟩ := bind_eq_ok.1 h
  obtain ⟨r, hr, h⟩ := bind_eq_ok.1 h
  obtain ⟨joined, hjoined, hselect⟩ := bind_eq_ok.1 h
  obtain ⟨keys, -, hnodup, hcolumns⟩ := Table.join_eq_ok hjoined
  rw [(isRectangular_withKeys hrectLeft hl).2, (isRectangular_withKeys (hrectRight.rename _) hr).2,
    Table.height_rename] at hcolumns
  have hnames : left.names ++ renames.map Prod.snd =
      left.names ++ (right.rename (JoinPlan.newName renames)).names := by
    rw [Table.names_rename]
    conv_lhs => rw [(JoinPlan.renamedRight_eq_ok hrenames).1]
    simp
  have hselected := Table.select_eq_ok hselect
  have hmem {name : String} (hname : name ∈ left.names ++ renames.map Prod.snd) :
      name ∈ joined.names := by
    obtain ⟨c, -, hc⟩ := exists_of_mem_left hselected hname
    exact Table.mem_names_of_column hc
  refine ⟨renames, l, r, _, hrenames, hl, hr, ⟨Table.related keys, rfl⟩, ?_, fun c hc => ?_,
    fun c hc => ?_⟩
  · exact (Table.map_name_of_columns hselected).trans hnames
  · have hname : c.name ∈ left.names ++ renames.map Prod.snd :=
      List.mem_append_left _ (List.mem_map_of_mem hc)
    rw [Table.column_select hselect hname]
    exact left_column_iff hrenames hl hr hnodup hcolumns hleft hc (hmem hname)
  · have hname : c.name ∈ left.names ++ renames.map Prod.snd := by
      rw [hnames]
      exact List.mem_append_right _ (List.mem_map_of_mem hc)
    rw [Table.column_select hselect hname]
    exact right_column_iff hrenames hl hr hnodup hcolumns hright hc (hmem hname)

end Eager

/-! ## All helpers -/

open Setting in
/-- Helper columns leave no trace on the eager engine just if they spare the columns of the tables.
A grouping keeps the columns that the computed keys spare, an order only puts their rows into
another order, and a join fills the columns that the helpers spare from the columns they come from.
-/
theorem helpers_spare_columns_iff (fs : Functions) :
    (∀ r t keys projection w, r.collect = .ok t → t.names.Nodup →
      group ⟨.eager, fs⟩ (.plain r) keys projection = .ok w →
      ∃ out, w.table.collect = .ok out ∧ ∀ c ∈ t.columns, c.name ∈ out.names ∧
        (out.column c.name = .ok c ↔ Eager.Spares fs (computedKeys keys) t c)) ∧
    (∀ r t items w, r.collect = .ok t → t.names.Nodup → t.IsRectangular →
      order ⟨.eager, fs⟩ (.plain r) items = .ok w →
      ∃ out, ∃ rows : List Nat, w.table.collect = .ok out ∧ rows.Perm (List.range t.height) ∧
        ∀ c ∈ t.columns, c.name ∈ out.names ∧
          (out.column c.name = .ok (c.take (rows.map some)) ↔
            Eager.Spares fs (computedOrder t.names items) t c)) ∧
    (∀ p rl rr joined left right, rl.collect = .ok left → rr.collect = .ok right →
      left.names.Nodup → right.names.Nodup → left.IsRectangular → right.IsRectangular →
      Engine.eager.join p rl rr = .ok joined →
      ∃ out renames l r rows, joined.collect = .ok out ∧
        Eager.SparesColumns p left right out renames l r rows) := by
  refine ⟨fun r t keys projection w hr hnodup h => ?_, fun r t items w hr hnodup ht h => ?_,
    fun p rl rr joined left right hl hr hleft hright hrectLeft hrectRight h => ?_⟩
  · obtain ⟨out, hout, hextend⟩ := exists_extend_of_group hr h
    refine ⟨out, hout, fun c hc => ⟨?_, ?_⟩⟩
    · exact Eager.mem_names_extend hextend (List.mem_map_of_mem hc)
    · exact Eager.column_extend_iff (Table.column_of_mem hnodup hc) hextend
  · obtain ⟨out, extended, rows, hout, hextend, hrows, hcolumns⟩ := exists_sort_of_order hr ht h
    obtain ⟨hrect, hheight⟩ := Eager.isRectangular_extend ht hextend
    refine ⟨out, rows, hout, hrows, fun c hc => ?_⟩
    have hname : c.name ∈ t.names := List.mem_map_of_mem hc
    obtain ⟨d, hd⟩ := Table.exists_column_of_mem (Eager.mem_names_extend hextend hname)
    have hlength : d.cells.length = t.height :=
      (hrect d (Table.mem_of_column hd).1).trans hheight
    have hcolumn : out.column c.name = .ok (d.take (rows.map some)) := by
      rw [hcolumns _ hname, Table.column_take, hd]
      rfl
    refine ⟨Table.mem_names_of_column hcolumn, ?_⟩
    rw [← Eager.column_extend_iff (Table.column_of_mem hnodup hc) hextend, hcolumn, hd,
      Except.ok.injEq, Except.ok.injEq]
    exact ⟨Column.eq_of_take_perm hrows hlength (ht c hc), fun h => by rw [h]⟩
  · obtain ⟨left', hleft', h⟩ := bind_eq_ok.1 h
    obtain rfl : left = left' := Except.ok.inj (hl.symm.trans hleft')
    obtain ⟨right', hright', h⟩ := bind_eq_ok.1 h
    obtain rfl : right = right' := Except.ok.inj (hr.symm.trans hright')
    obtain ⟨out, hout, h⟩ := bind_eq_ok.1 h
    cases h
    obtain ⟨renames, l, r, rows, hspares⟩ :=
      Eager.exists_sparesColumns hleft hright hrectLeft hrectRight hout
    exact ⟨out, renames, l, r, rows, rfl, hspares⟩

/-- A sheet of two rows. -/
def sheet : Table :=
  ⟨[⟨"a", .int64, [.int 1, .int 2]⟩, ⟨"b", .int64, [.int 10, .int 20]⟩]⟩

/-- The computed item `a + 1`. -/
def nextItem : Item :=
  ⟨.binary .add (.column "a") (.literal (.int 1)), "a + 1", "a + 1"⟩

theorem sheet_keeps_columns :
    (∃ w out, Setting.group ⟨.eager, .builtin⟩ (.plain (.frame sheet)) [nextItem] [nextItem] =
        .ok w ∧ w.table.collect = .ok out ∧
      out.column "b" = .ok ⟨"b", .int64, [.int 10, .int 20]⟩) ∧
    (∃ w out, ∃ rows : List Nat, Setting.order ⟨.eager, .builtin⟩ (.plain (.frame sheet))
        [⟨nextItem, false⟩] = .ok w ∧ w.table.collect = .ok out ∧ rows.Perm [0, 1] ∧
      out.column "b" = .ok (Column.take (rows.map some) ⟨"b", .int64, [.int 10, .int 20]⟩)) ∧
    ∃ joined out rows, Engine.eager.join ⟨.inner, "s", ["a"], ["a"]⟩ (.frame sheet) (.frame sheet) =
        .ok joined ∧ joined.collect = .ok out ∧
      out.column "s.b" = .ok (Column.take rows ⟨"s.b", .int64, [.int 10, .int 20]⟩) := by
  have hrect : sheet.IsRectangular := by
    simp [sheet, Table.IsRectangular, Table.height]
  have hnodup : sheet.names.Nodup := by decide
  obtain ⟨hgroup, horder, hjoin⟩ := helpers_spare_columns_iff .builtin
  refine ⟨?_, ?_, ?_⟩
  · obtain ⟨w, hw⟩ := exists_eq_ok (x := Setting.group ⟨.eager, .builtin⟩ (.plain (.frame sheet))
      [nextItem] [nextItem]) (by decide +kernel)
    obtain ⟨out, hout, hcolumns⟩ := hgroup _ sheet _ _ w rfl hnodup hw
    refine ⟨w, out, hw, hout, (hcolumns ⟨"b", .int64, [.int 10, .int 20]⟩ (by simp [sheet])).2.2 ?_⟩
    exact Eager.spares_of_not_mem (by decide)
  · obtain ⟨w, hw⟩ := exists_eq_ok (x := Setting.order ⟨.eager, .builtin⟩ (.plain (.frame sheet))
      [⟨nextItem, false⟩]) (by decide +kernel)
    obtain ⟨out, rows, hout, hrows, hcolumns⟩ := horder _ sheet _ w rfl hnodup hrect hw
    refine ⟨w, out, rows, hw, hout, hrows,
      (hcolumns ⟨"b", .int64, [.int 10, .int 20]⟩ (by simp [sheet])).2.2 ?_⟩
    exact Eager.spares_of_not_mem (by decide +kernel)
  · obtain ⟨joined, hjoined⟩ := exists_eq_ok (x := Engine.eager.join
      ⟨.inner, "s", ["a"], ["a"]⟩ (.frame sheet) (.frame sheet)) (by decide +kernel)
    obtain ⟨out, renames, l, r, rows, hout, hspares⟩ :=
      hjoin _ _ _ joined sheet sheet rfl rfl hnodup hnodup hrect hrect hjoined
    have hrenames := hspares.renamed
    cases hrenames
    refine ⟨joined, out, _, hjoined, hout,
      (hspares.rightColumn ⟨"s.b", .int64, [.int 10, .int 20]⟩ ?_).2 ?_⟩
    · exact List.mem_cons_of_mem _ List.mem_cons_self
    · have hfree : "s.b" ∉ JoinPlan.leftHelpers ⟨.inner, "s", ["a"], ["a"]⟩ := by decide +kernel
      exact fun h => absurd h hfree

/-- A ledger whose columns are named like helpers. -/
def ledger : Table :=
  ⟨[⟨"a", .int64, [.int 1, .int 2]⟩, ⟨"a + 1", .int64, [.int 10, .int 20]⟩,
    ⟨"__fq_order_0", .int64, [.int 7, .int 8]⟩, ⟨"__fq_lk_0", .int64, [.int 5, .int 6]⟩]⟩

/-- The column `a + 1` gives way to a group key, `__fq_order_0` to a sort key, and `__fq_lk_0` to
the key of a join. -/
theorem ledger_loses_columns :
    (∃ w out, Setting.group ⟨.eager, .builtin⟩ (.plain (.frame ledger)) [nextItem] [nextItem] =
        .ok w ∧ w.table.collect = .ok out ∧
      out.column "a + 1" = .ok ⟨"a + 1", .int64, [.int 2, .int 3]⟩) ∧
    (∃ w out, Setting.order ⟨.eager, .builtin⟩ (.plain (.frame ledger))
        [⟨⟨.binary .add (.column "a") (.literal (.int 0)), "a + 0", "a + 0"⟩, false⟩] = .ok w ∧
      w.table.collect = .ok out ∧
      out.column "__fq_order_0" = .ok ⟨"__fq_order_0", .int64, [.int 2, .int 1]⟩) ∧
    ∃ joined out, Engine.eager.join ⟨.inner, "s", ["a"], ["a"]⟩ (.frame ledger) (.frame sheet) =
        .ok joined ∧ joined.collect = .ok out ∧
      out.column "__fq_lk_0" = .ok ⟨"__fq_lk_0", .int64, [.int 1, .int 2]⟩ :=
  ⟨⟨_, _, rfl, rfl, rfl⟩, ⟨_, _, rfl, rfl, rfl⟩, ⟨_, _, rfl, rfl, rfl⟩⟩

end TableQuery
