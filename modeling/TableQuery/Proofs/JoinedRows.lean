import TableQuery.Proofs.Engines.Join
import TableQuery.Proofs.HelperColumns
import TableQuery.Proofs.JoinPairs

/-!
# The rows of a join

A join pairs the rows that agree in all keys, none of them missing. The keys are looked up in helper
columns, which copy the key columns of the left table and the renamed ones of the right table. The
columns of the join are those of the left table and those of the right one, where it has to be under
new names; a new name that is taken makes the join fail.
-/

namespace TableQuery

open Name

/-! ## Keys -/

/-- Whether a cell can be a key of the given type: a whole number, a text or a truth value, or
missing. -/
def Cell.isKey (type : ColumnType) : Cell → Bool
  | .null => true
  | .bool _ => type = .bool
  | .int _ => type.isInteger
  | .str _ => type = .str
  | _ => false

/-- Keys of one type are the same if they are equal. -/
theorem Cell.same_iff {type : ColumnType} {x y : Cell} (hx : x.isKey type = true)
    (hy : y.isKey type = true) (hnull : x.isNull = false) : x.same y = true ↔ x = y := by
  cases x <;> cases y <;> cases type <;>
    simp_all [isKey, isNull, same, order, ColumnType.isInteger]

/-- A column of keys. -/
def Column.IsKey (c : Column) : Prop :=
  ∀ cell ∈ c.cells, cell.isKey c.type = true

namespace Table

variable {left right : Table} {on : List (String × String)}

/-- Keys go together if they are columns of one type. -/
theorem exists_keyCells_iff : (∃ keys, keyCells left right on = .ok keys) ↔
    ∀ k ∈ on, ∃ c d, left.column k.1 = .ok c ∧ right.column k.2 = .ok d ∧ c.type = d.type := by
  refine exists_mapM_eq_ok_iff.trans (forall₂_congr fun k _ => ⟨?_, ?_⟩)
  · rintro ⟨_, hkey⟩
    obtain ⟨c, hc, hkey⟩ := bind_eq_ok.1 hkey
    obtain ⟨d, hd, hkey⟩ := bind_eq_ok.1 hkey
    refine ⟨c, d, hc, hd, by_contra fun htype => ?_⟩
    simp only [ne_eq, htype, not_false_eq_true, if_true] at hkey
    cases hkey
  · rintro ⟨c, d, hc, hd, htype⟩
    refine ⟨(c.cells.toArray, d.cells.toArray), bind_eq_ok.2 ⟨c, hc, bind_eq_ok.2 ⟨d, hd, ?_⟩⟩⟩
    simp only [htype, ne_eq, not_true_eq_false, if_false]
    rfl

/-- Rows are related if all their keys are known and the same. -/
theorem related_iff {keys : List (Array Cell × Array Cell)} (h : keyCells left right on = .ok keys)
    {i j : Nat} : related keys i j = true ↔ ∀ k ∈ on, ∃ c d x y, left.column k.1 = .ok c ∧
      right.column k.2 = .ok d ∧ c.cells[i]? = some x ∧ d.cells[j]? = some y ∧ x.isNull = false ∧
      x.same y = true := by
  have hall := mapM_eq_ok.1 h
  clear h
  induction hall with
  | nil => simp [related]
  | @cons k key on keys hkey _ ih =>
    obtain ⟨c, hc, hkey⟩ := bind_eq_ok.1 hkey
    obtain ⟨d, hd, hkey⟩ := bind_eq_ok.1 hkey
    dsimp only at hkey
    split at hkey
    · cases hkey
    cases hkey
    rw [List.forall_mem_cons, related, List.all_cons, Bool.and_eq_true]
    refine and_congr ?_ ih
    simp only [hc, hd, Except.ok.injEq]
    cases hx : c.cells[i]? <;> cases hy : d.cells[j]? <;> simp [hx, hy]

end Table

namespace Eager

/-- Columns of a table can be put behind the others under new names. -/
theorem exists_withKeys {columns : List (String × String)} {t : Table}
    (hsource : ∀ c ∈ columns, c.1 ∈ t.names) (hnodup : (t.names ++ columns.map Prod.snd).Nodup) :
    ∃ s, withKeys columns t = .ok s ∧ s.names = t.names ++ columns.map Prod.snd ∧
      ∀ c ∈ columns, ∃ d, t.column c.1 = .ok d ∧ s.column c.2 = .ok { d with name := c.2 } := by
  induction columns generalizing t with
  | nil => exact ⟨t, rfl, by simp, by simp⟩
  | cons k columns ih =>
    obtain ⟨hk, hsource⟩ := List.forall_mem_cons.1 hsource
    obtain ⟨d, hd⟩ := Table.exists_column_of_mem hk
    rw [List.map_cons, List.append_cons] at hnodup
    have hnew : k.2 ∉ t.names := fun h =>
      (List.nodup_append.1 (List.nodup_append.1 hnodup).1).2.2 k.2 h k.2 List.mem_cons_self rfl
    have hrest : k.2 ∉ columns.map Prod.snd := fun h =>
      (List.nodup_append.1 hnodup).2.2 k.2 (by simp) k.2 h rfl
    have hnames : (t.put { d with name := k.2 }).names = t.names ++ [k.2] := by
      rw [Table.names_put, Table.putName, if_neg (by simpa using hnew)]
    have hkept {name : String} (h : name ∈ t.names) :
        (t.put { d with name := k.2 }).column name = t.column name := by
      rw [Table.column_put, if_neg fun e : name = k.2 => hnew (e ▸ h)]
    obtain ⟨s, hs, hsnames, hcolumns⟩ := ih (t := t.put { d with name := k.2 })
      (fun c hc => hnames ▸ List.mem_append_left _ (hsource c hc)) (hnames ▸ hnodup)
    refine ⟨s, ?_, ?_, List.forall_mem_cons.2 ⟨⟨d, hd, ?_⟩, fun c hc => ?_⟩⟩
    · rw [withKeys_cons, hd]
      exact hs
    · rw [hsnames, hnames]
      simp
    · rw [column_withKeys hs hrest, Table.column_put, if_pos rfl]
    · obtain ⟨b, hb, hcolumn⟩ := hcolumns c hc
      rw [hkept (hsource c hc)] at hb
      exact ⟨b, hb, hcolumn⟩

end Eager

/-! ## Names and keys of a plan -/

namespace JoinPlan

/-- The pairs of key columns. -/
def keys (p : JoinPlan) : List (String × String) :=
  p.leftOn.zip p.rightOn

/-- Rows of two tables match if their keys are equal, none of them missing. -/
def Matches (p : JoinPlan) (left right : Table) (i j : Nat) : Prop :=
  ∀ k ∈ p.keys, ∃ c d x, left.column k.1 = .ok c ∧ right.column k.2 = .ok d ∧
    c.cells[i]? = some x ∧ d.cells[j]? = some x ∧ x ≠ .null

/-- The name of a column of the right table in the join: with the alias in front if it is taken. -/
def outputName (p : JoinPlan) (left : List String) (column : String) : String :=
  if column ∈ left then qualify p.label column else column

/-- No name with the alias in front is taken. -/
def Separates (p : JoinPlan) (left right : List String) : Prop :=
  ∀ c ∈ right, c ∈ left → qualify p.label c ∉ left ∧ qualify p.label c ∉ right

variable {p : JoinPlan} {left right : List String}

theorem renamedRight_of_separates (h : p.Separates left right) :
    p.renamedRight left right = .ok (right.map fun c => (c, p.outputName left c)) := by
  refine mapM_eq_ok_map fun c hc => ?_
  have hname : p.renamed left right c = .ok (p.outputName left c) := by
    rw [renamed_eq_ok_iff, outputName]
    by_cases hmem : c ∈ left
    · rw [if_pos hmem]
      exact .inr ⟨hmem, rfl, h c hc hmem⟩
    · rw [if_neg hmem]
      exact .inl ⟨hmem, rfl⟩
  rw [hname]
  rfl

/-- A name with the alias in front that is taken is a fault. -/
theorem renamedRight_of_not_separates (h : ¬p.Separates left right) :
    ∃ c ∈ right, c ∈ left ∧ (qualify p.label c ∈ left ∨ qualify p.label c ∈ right) ∧
      p.renamedRight left right = .error (.join (.ambiguous c (qualify p.label c))) := by
  cases hrenames : p.renamedRight left right with
  | ok renames =>
    refine absurd (fun c hc hmem => ?_) h
    obtain ⟨-, hnew⟩ := renamedRight_eq_ok hrenames
    rcases renamed_eq_ok_iff.1 (hnew c hc) with ⟨hnot, -⟩ | ⟨-, hname, hfree⟩
    · exact absurd hmem hnot
    · exact hname ▸ hfree
  | error f =>
    obtain ⟨i, hi, hf⟩ := exists_of_mapM_eq_error hrenames
    have hc : right[i] ∈ right := List.getElem_mem hi
    generalize right[i] = c at hf hc
    unfold renamed at hf
    split at hf
    · cases hf
    · next hmem =>
      have hmem : c ∈ left := by simpa using hmem
      dsimp only at hf
      split at hf
      · next htaken =>
        cases hf
        exact ⟨c, hc, hmem, by simpa using htaken, rfl⟩
      · cases hf

theorem map_snd_numberedKeys : p.numberedKeys.map Prod.snd = p.keys := by
  refine List.map_snd_zip ?_
  rw [List.length_zip, List.length_range]
  exact Nat.min_le_left _ _

theorem nodup_numberedKeys (h : p.leftOn.length = p.rightOn.length) :
    (p.numberedKeys.map Prod.fst).Nodup := by
  have hfst : p.numberedKeys.map Prod.fst = List.range p.leftOn.length := by
    refine List.map_fst_zip ?_
    rw [List.length_zip, List.length_range, ← h, Nat.min_self]
  rw [hfst]
  exact List.nodup_range

theorem nodup_leftHelpers (h : p.leftOn.length = p.rightOn.length) : p.leftHelpers.Nodup := by
  have hmap : p.leftHelpers = (p.numberedKeys.map Prod.fst).map hiddenLeft := by
    simp [leftHelpers, copiedKeys, Function.comp_def]
  rw [hmap]
  exact (nodup_numberedKeys h).map hiddenLeft_injective

theorem nodup_rightHelpers (h : p.leftOn.length = p.rightOn.length) : p.rightHelpers.Nodup := by
  have hmap : p.rightHelpers = (p.numberedKeys.map Prod.fst).map hiddenRight := by
    simp [rightHelpers, copiedKeys, Function.comp_def]
  rw [hmap]
  exact (nodup_numberedKeys h).map hiddenRight_injective

theorem not_mem_leftHelpers_of_isOrdinary {name : String} (h : IsOrdinary name) :
    name ∉ p.leftHelpers := by
  intro hmem
  simp only [leftHelpers, copiedKeys, List.map_map, List.mem_map, Function.comp_apply] at hmem
  obtain ⟨k, -, rfl⟩ := hmem
  exact not_isOrdinary_hiddenLeft _ h

theorem not_mem_rightHelpers_of_isOrdinary {name : String} (h : IsOrdinary name) :
    name ∉ p.rightHelpers := by
  intro hmem
  simp only [rightHelpers, copiedKeys, List.map_map, List.mem_map, Function.comp_apply] at hmem
  obtain ⟨k, -, rfl⟩ := hmem
  exact not_isOrdinary_hiddenRight _ h

/-- The columns of two tables with helpers get different names. -/
theorem nodup_joinNames {left right : List String} (hleft : left.Nodup) (hright : right.Nodup)
    (hleftOrdinary : ∀ name ∈ left, IsOrdinary name)
    (hrightOrdinary : ∀ name ∈ right, IsOrdinary name) (hfree : ∀ name ∈ right, name ∉ left)
    (hlengths : p.leftOn.length = p.rightOn.length) (mode : JoinMode) :
    (Table.joinNames mode p.copiedKeys (left ++ p.leftHelpers) (right ++ p.rightHelpers)).Nodup := by
  have hleftHelpers : (left ++ p.leftHelpers).Nodup :=
    List.nodup_append'.2 ⟨hleft, nodup_leftHelpers hlengths, fun n hn =>
      not_mem_leftHelpers_of_isOrdinary (hleftOrdinary n hn)⟩
  have hrightHelpers : (right ++ p.rightHelpers).Nodup :=
    List.nodup_append'.2 ⟨hright, nodup_rightHelpers hlengths, fun n hn =>
      not_mem_rightHelpers_of_isOrdinary (hrightOrdinary n hn)⟩
  have hall : ((left ++ p.leftHelpers) ++ (right ++ p.rightHelpers)).Nodup := by
    refine List.nodup_append'.2 ⟨hleftHelpers, hrightHelpers, fun n hn hn' => ?_⟩
    rcases List.mem_append.1 hn with hn | hn <;> rcases List.mem_append.1 hn' with hn' | hn'
    · exact hfree n hn' hn
    · exact not_mem_rightHelpers_of_isOrdinary (hleftOrdinary n hn) hn'
    · exact not_mem_leftHelpers_of_isOrdinary (hrightOrdinary n hn') hn
    · exact not_mem_rightHelpers hn hn'
  have hsides {l r : List String} (hl : l.Sublist (left ++ p.leftHelpers))
      (hr : r.Sublist (right ++ p.rightHelpers)) : (l ++ r.map (Table.freshName l)).Nodup := by
    have hsub := (hl.append hr).nodup hall
    have hfresh : r.map (Table.freshName l) = r := by
      refine (List.map_congr_left fun n hn => Table.freshName_of_not_mem fun hn' => ?_).trans
        (List.map_id _)
      exact (List.nodup_append'.1 hsub).2.2 hn' hn
    rwa [hfresh]
  cases mode with
  | right => exact hsides List.filter_sublist (.refl _)
  | inner => exact hsides (.refl _) List.filter_sublist
  | left => exact hsides (.refl _) List.filter_sublist

/-- Two tables, with ordinary and different names each, that can be joined by the keys of a plan:
whole numbers, texts or truth values of one type. -/
structure Fits (p : JoinPlan) (left right : Table) : Prop where
  leftNames : left.names.Nodup
  rightNames : right.names.Nodup
  leftOrdinary : left.HasOrdinaryNames
  rightOrdinary : right.HasOrdinaryNames
  lengths : p.leftOn.length = p.rightOn.length
  keyed : p.keys ≠ []
  key : ∀ k ∈ p.keys, ∃ c d, left.column k.1 = .ok c ∧ right.column k.2 = .ok d ∧
    c.type = d.type ∧ c.IsKey ∧ d.IsKey

/-- A plan for tables with ordinary and different names each, whose keys are columns of them. -/
structure IsFor (p : JoinPlan) (left right : List String) : Prop where
  leftNames : left.Nodup
  rightNames : right.Nodup
  leftOrdinary : ∀ name ∈ left, IsOrdinary name
  rightOrdinary : ∀ name ∈ right, IsOrdinary name
  lengths : p.leftOn.length = p.rightOn.length
  key : ∀ k ∈ p.keys, k.1 ∈ left ∧ k.2 ∈ right

/-- The columns of every key have one type. -/
def IsTyped (p : JoinPlan) (left right : Table) : Prop :=
  ∀ k ∈ p.keys, ∃ c d, left.column k.1 = .ok c ∧ right.column k.2 = .ok d ∧ c.type = d.type

/-- Rows of two tables agree if their keys are the same, none of them missing. -/
def Agrees (p : JoinPlan) (left right : Table) (i j : Nat) : Prop :=
  ∀ k ∈ p.keys, ∃ c d x y, left.column k.1 = .ok c ∧ right.column k.2 = .ok d ∧
    c.cells[i]? = some x ∧ d.cells[j]? = some y ∧ x.isNull = false ∧ x.same y = true

namespace Fits

variable {left right : Table} (h : p.Fits left right)

include h

theorem isFor : p.IsFor left.names right.names where
  leftNames := h.leftNames
  rightNames := h.rightNames
  leftOrdinary := h.leftOrdinary
  rightOrdinary := h.rightOrdinary
  lengths := h.lengths
  key := by
    intro k hk
    obtain ⟨c, d, hc, hd, -⟩ := h.key k hk
    exact ⟨Table.mem_names_of_column hc, Table.mem_names_of_column hd⟩

theorem isTyped : p.IsTyped left right := by
  intro k hk
  obtain ⟨c, d, hc, hd, htype, -⟩ := h.key k hk
  exact ⟨c, d, hc, hd, htype⟩

/-- Keys of one type agree if they are equal. -/
theorem agrees_iff (i j : Nat) : p.Agrees left right i j ↔ p.Matches left right i j := by
  refine forall₂_congr fun k hk => ?_
  obtain ⟨c, d, hc, hd, htype, hckey, hdkey⟩ := h.key k hk
  simp only [hc, hd, Except.ok.injEq, exists_and_left, exists_eq_left']
  constructor
  · rintro ⟨x, hx, y, hy, hnull, hsame⟩
    have hxkey := hckey x (List.mem_of_getElem? hx)
    have hykey := hdkey y (List.mem_of_getElem? hy)
    rw [← htype] at hykey
    obtain rfl := (Cell.same_iff hxkey hykey hnull).1 hsame
    exact ⟨x, hx, hy, by rintro rfl; cases hnull⟩
  · rintro ⟨x, hx, hy, hnull⟩
    have hnull : x.isNull = false := by
      cases x <;> first | rfl | exact absurd rfl hnull
    have hxkey := hckey x (List.mem_of_getElem? hx)
    exact ⟨x, hx, x, hy, hnull, (Cell.same_iff hxkey hxkey hnull).2 rfl⟩

end Fits

end JoinPlan

/-! ## The join -/

namespace Table

theorem column_rename {t : Table} {f : String → String} (hnodup : (t.rename f).names.Nodup)
    {name : String} {c : Column} (hc : t.column name = .ok c) :
    (t.rename f).column (f name) = .ok { c with name := f name } := by
  obtain ⟨hmem, rfl⟩ := mem_of_column hc
  exact column_of_mem (c := { c with name := f c.name }) hnodup (List.mem_map.2 ⟨c, hmem, rfl⟩)

theorem exists_join {mode : JoinMode} {on : List (String × String)} {left right : Table}
    {keys : List (Array Cell × Array Cell)} (hon : on ≠ [])
    (hkeys : keyCells left right on = .ok keys)
    (hnodup : (joinNames mode on left.names right.names).Nodup) :
    ∃ joined, join mode on left right = .ok joined := by
  unfold join
  simp only [List.isEmpty_iff, hon, if_false, hkeys, ok_bind]
  cases mode <;>
  · simp only [joinNames, ← names_without] at hnodup
    refine ⟨_, bind_eq_ok.2 ⟨(), distinct_eq_ok.2 ?_, rfl⟩⟩
    simpa [names, rename, Column.take, Function.comp_def] using hnodup

end Table

namespace Eager

open JoinPlan

variable {p : JoinPlan} {left right : Table} {renames : List (String × String)}

/-- The tables with their keys under helper names. -/
structure HasKeys (p : JoinPlan) (left right l r : Table) (renames : List (String × String)) :
    Prop where
  leftKeys : withKeys p.leftCopies left = .ok l
  rightKeys : withKeys (p.rightCopies renames) (right.rename (newName renames)) = .ok r
  leftNames : l.names = left.names ++ p.leftHelpers
  rightNames : r.names = (right.rename (newName renames)).names ++ p.rightHelpers
  column : ∀ k ∈ p.numberedKeys, ∃ c d, left.column k.2.1 = .ok c ∧ right.column k.2.2 = .ok d ∧
    l.column (hiddenLeft k.1) = .ok { c with name := hiddenLeft k.1 } ∧
    r.column (hiddenRight k.1) = .ok { d with name := hiddenRight k.1 }

theorem exists_hasKeys (h : p.IsFor left.names right.names)
    (hrenames : p.renamedRight left.names right.names = .ok renames) :
    ∃ l r, HasKeys p left right l r renames := by
  have hkey {k : Nat × String × String} (hk : k ∈ p.numberedKeys) :
      k.2.1 ∈ left.names ∧ k.2.2 ∈ right.names :=
    h.key k.2 (map_snd_numberedKeys (p := p) ▸ List.mem_map_of_mem hk)
  have hnames : (right.rename (newName renames)).names.Nodup := by
    rw [Table.names_rename]
    exact nodup_newNames hrenames h.rightNames
  have hleftSource : ∀ k ∈ p.leftCopies, k.1 ∈ left.names := by
    simp only [leftCopies, List.forall_mem_map]
    exact fun k hk => (hkey hk).1
  have hleft : (left.names ++ p.leftHelpers).Nodup :=
    List.nodup_append'.2 ⟨h.leftNames, nodup_leftHelpers h.lengths, fun n hn =>
      not_mem_leftHelpers_of_isOrdinary (h.leftOrdinary n hn)⟩
  have hrightSource :
      ∀ k ∈ p.rightCopies renames, k.1 ∈ (right.rename (newName renames)).names := by
    simp only [rightCopies, List.forall_mem_map, Table.names_rename]
    exact fun k hk => List.mem_map_of_mem (hkey hk).2
  have hright : ((right.rename (newName renames)).names ++ p.rightHelpers).Nodup :=
    List.nodup_append'.2 ⟨hnames, nodup_rightHelpers h.lengths, fun n hn =>
      not_mem_rightHelpers_of_isOrdinary (hasOrdinaryNames_rename h.rightOrdinary hrenames n hn)⟩
  rw [← map_snd_leftCopies] at hleft
  rw [← map_snd_rightCopies p renames] at hright
  obtain ⟨l, hl, hlnames, hlcolumns⟩ := exists_withKeys hleftSource hleft
  obtain ⟨r, hr, hrnames, hrcolumns⟩ := exists_withKeys hrightSource hright
  rw [map_snd_leftCopies] at hlnames
  rw [map_snd_rightCopies] at hrnames
  refine ⟨l, r, hl, hr, hlnames, hrnames, fun k hk => ?_⟩
  obtain ⟨c, hc, hlcolumn⟩ := hlcolumns _ (List.mem_map_of_mem hk)
  obtain ⟨d', hd', hrcolumn⟩ := hrcolumns _ (List.mem_map_of_mem hk)
  obtain ⟨d, hd⟩ := Table.exists_column_of_mem (hkey hk).2
  rw [Table.column_rename hnames hd] at hd'
  cases hd'
  exact ⟨c, d, hc, hd, hlcolumn, hrcolumn⟩

namespace HasKeys

variable {l r : Table} (hk : HasKeys p left right l r renames)

include hk

/-- The helpers go together if the columns of every key have one type. -/
theorem exists_keyCells_iff :
    (∃ keys, Table.keyCells l r p.copiedKeys = .ok keys) ↔ p.IsTyped left right := by
  rw [Table.exists_keyCells_iff, IsTyped, ← map_snd_numberedKeys, copiedKeys, List.forall_mem_map,
    List.forall_mem_map]
  refine forall₂_congr fun k hmem => ?_
  obtain ⟨c, d, hc, hd, hlc, hrd⟩ := hk.column k hmem
  simp only [hc, hd, hlc, hrd, Except.ok.injEq, exists_and_left, exists_eq_left']

/-- Rows are related by the helpers if they agree. -/
theorem related_iff {keys : List (Array Cell × Array Cell)}
    (hkeys : Table.keyCells l r p.copiedKeys = .ok keys) (i j : Nat) :
    Table.related keys i j = true ↔ p.Agrees left right i j := by
  rw [Table.related_iff hkeys, Agrees, ← map_snd_numberedKeys, copiedKeys, List.forall_mem_map,
    List.forall_mem_map]
  refine forall₂_congr fun k hmem => ?_
  obtain ⟨c, d, hc, hd, hlc, hrd⟩ := hk.column k hmem
  simp only [hc, hd, hlc, hrd, Except.ok.injEq, exists_and_left, exists_eq_left']

/-- The columns of the tables get different names. -/
theorem nodup_joinNames (h : p.IsFor left.names right.names)
    (hrenames : p.renamedRight left.names right.names = .ok renames) (mode : JoinMode) :
    (Table.joinNames mode p.copiedKeys l.names r.names).Nodup := by
  rw [hk.leftNames, hk.rightNames]
  refine JoinPlan.nodup_joinNames h.leftNames ?_ h.leftOrdinary
    (hasOrdinaryNames_rename h.rightOrdinary hrenames) (fun n hn => ?_) h.lengths mode
  · rw [Table.names_rename]
    exact nodup_newNames hrenames h.rightNames
  · exact not_mem_left_of_renamed hrenames hn

end HasKeys

/-- A join succeeds if there are keys, of one type each, and new names for the joined columns. It
pairs the rows that agree. -/
theorem join_eq_ok_iff (h : p.IsFor left.names right.names) {out : Table} :
    join p left right = .ok out ↔ p.keys ≠ [] ∧ p.IsTyped left right ∧
      ∃ renames related, p.renamedRight left.names right.names = .ok renames ∧
        (∀ i j, related i j = true ↔ p.Agrees left right i j) ∧
        out = ⟨Table.paired (p.mode.pairs related left.height right.height) left
          (right.rename (newName renames))⟩ := by
  have hnil : p.copiedKeys = [] ↔ p.keys = [] := by
    rw [← map_snd_numberedKeys, copiedKeys, List.map_eq_nil_iff, List.map_eq_nil_iff]
  constructor
  · intro hout
    rw [join_eq] at hout
    obtain ⟨renames, hrenames, hout⟩ := bind_eq_ok.1 hout
    obtain ⟨l, r, hk⟩ := exists_hasKeys h hrenames
    rw [hk.leftKeys, ok_bind, hk.rightKeys, ok_bind] at hout
    obtain ⟨joined, hjoined, hselect⟩ := bind_eq_ok.1 hout
    obtain ⟨keys, hkeys, hselect', -⟩ := select_of_join h.leftOrdinary h.rightOrdinary hrenames
      hk.leftKeys hk.rightKeys hjoined
    refine ⟨fun hempty => ?_, hk.exists_keyCells_iff.1 ⟨keys, hkeys⟩, renames, _, hrenames,
      hk.related_iff hkeys, Except.ok.inj (hselect.symm.trans hselect')⟩
    rw [hnil.2 hempty] at hjoined
    cases hjoined
  · rintro ⟨hne, htyped, renames, related, hrenames, hrelated, rfl⟩
    obtain ⟨l, r, hk⟩ := exists_hasKeys h hrenames
    obtain ⟨keys, hkeys⟩ := hk.exists_keyCells_iff.2 htyped
    obtain ⟨joined, hjoined⟩ := Table.exists_join (mt hnil.1 hne) hkeys
      (hk.nodup_joinNames h hrenames p.mode)
    obtain ⟨keys', hkeys', hselect, -⟩ := select_of_join h.leftOrdinary h.rightOrdinary hrenames
      hk.leftKeys hk.rightKeys hjoined
    obtain rfl := Except.ok.inj (hkeys.symm.trans hkeys')
    obtain rfl : Table.related keys = related := by
      funext i j
      exact Bool.eq_iff_iff.2 ((hk.related_iff hkeys i j).trans (hrelated i j).symm)
    rw [join_eq, hrenames, ok_bind, hk.leftKeys, ok_bind, hk.rightKeys, ok_bind, hjoined, ok_bind,
      hselect]

/-- Tables that fit are joined: the columns of both, with cells from the pairs of rows that are
listed. -/
theorem exists_join (h : p.Fits left right)
    (hrenames : p.renamedRight left.names right.names = .ok renames) :
    ∃ out rows, join p left right = .ok out ∧
      out.columns = Table.paired rows left (right.rename (newName renames)) ∧
      p.mode.Lists (p.Matches left right) left.height right.height rows := by
  classical
  let related (i j : Nat) : Bool := decide (p.Agrees left right i j)
  have hrelated (i j : Nat) : related i j = true ↔ p.Agrees left right i j := decide_eq_true_iff
  refine ⟨_, _, (join_eq_ok_iff h.isFor).2 ⟨h.keyed, h.isTyped, renames, related, hrenames, hrelated,
    rfl⟩, rfl, JoinMode.lists_pairs p.mode (fun i j => ?_) _ _⟩
  exact (hrelated i j).trans (h.agrees_iff i j)

end Eager

namespace Deferred

/-- Where tables are joined, so are plans that stand for them. -/
theorem exists_join {p : JoinPlan} {pl pr : Plan} {left right out : Table}
    (hpl : pl.StandsFor left) (hpr : pr.StandsFor right) (hlo : left.HasOrdinaryNames)
    (hro : right.HasOrdinaryNames) (h : Eager.join p left right = .ok out) :
    ∃ plan, join p pl pr = .ok plan ∧ plan.StandsFor out := by
  rcases Eager.join_alike hpl hpr hlo hro with ⟨t, plan, ht, hplan, hstands, -⟩ | ⟨f, hf, -⟩
  · obtain rfl := Except.ok.inj (h.symm.trans ht)
    exact ⟨plan, hplan, hstands⟩
  · cases h.symm.trans hf

end Deferred

namespace Engine

variable {p : JoinPlan} {rl rr : Relation} {left right : Table}

theorem exists_join (e : Engine) (hl : rl.StandsFor left) (hr : rr.StandsFor right)
    (hlo : left.HasOrdinaryNames) (hro : right.HasOrdinaryNames) {out : Table}
    (h : Eager.join p left right = .ok out) :
    ∃ joined, e.join p rl rr = .ok joined ∧ joined.collect = .ok out := by
  cases e with
  | eager =>
    refine ⟨.frame out, ?_, rfl⟩
    rw [join, hl.collect, hr.collect, ok_bind, ok_bind, h]
    rfl
  | deferred =>
    obtain ⟨plan, hplan, hstands⟩ := Deferred.exists_join hl hr hlo hro h
    refine ⟨.plan plan, ?_, hstands.collect⟩
    rw [join, hplan]
    rfl

theorem join_eq_error (e : Engine) (hl : rl.StandsFor left) (hr : rr.StandsFor right) {f : Fault}
    (h : p.renamedRight left.names right.names = .error f) : e.join p rl rr = .error f := by
  cases e with
  | eager =>
    rw [join, hl.collect, hr.collect, ok_bind, ok_bind, Eager.join_eq, h]
    rfl
  | deferred =>
    rw [join, Deferred.join_eq, Plan.StandsFor.names hl, Plan.StandsFor.names hr, ok_bind, ok_bind, h]
    rfl

/-- A join has the columns of the left table and then those of the right one, which have the alias
in front where their names are taken, and its rows are the pairs that its mode lists of the rows
that match. It fails on both engines just if a name with the alias in front is taken, too. -/
theorem join_lists_matching_rows (e : Engine) (hl : rl.StandsFor left) (hr : rr.StandsFor right)
    (h : p.Fits left right) :
    (p.Separates left.names right.names →
      ∃ joined out rows, e.join p rl rr = .ok joined ∧ joined.collect = .ok out ∧
        out.columns = left.columns.map (Column.take (rows.map Prod.fst)) ++
          right.columns.map (fun c =>
            { c.take (rows.map Prod.snd) with name := p.outputName left.names c.name }) ∧
        p.mode.Lists (p.Matches left right) left.height right.height rows) ∧
    (¬p.Separates left.names right.names →
      ∃ c ∈ right.names, c ∈ left.names ∧
        (qualify p.label c ∈ left.names ∨ qualify p.label c ∈ right.names) ∧
        e.join p rl rr = .error (.join (.ambiguous c (qualify p.label c)))) := by
  refine ⟨fun hfree => ?_, fun htaken => ?_⟩
  · have hrenames := JoinPlan.renamedRight_of_separates hfree
    obtain ⟨out, rows, hout, hcolumns, hlists⟩ := Eager.exists_join h hrenames
    obtain ⟨joined, hjoined, hcollect⟩ :=
      e.exists_join hl hr h.leftOrdinary h.rightOrdinary hout
    refine ⟨joined, out, rows, hjoined, hcollect, hcolumns.trans ?_, hlists⟩
    refine congrArg (left.columns.map (Column.take (rows.map Prod.fst)) ++ ·) ?_
    rw [Table.rename, List.map_map]
    refine List.map_congr_left fun c hc => ?_
    have hname : c.name ∈ right.names := List.mem_map_of_mem hc
    rw [Function.comp_apply, JoinPlan.newName_map hname]
    rfl
  · obtain ⟨c, hc, hmem, hq, hrenames⟩ := JoinPlan.renamedRight_of_not_separates htaken
    exact ⟨c, hc, hmem, hq, e.join_eq_error hl hr hrenames⟩

end Engine

/-- People with their departments, one of them without. -/
def staff : Table :=
  ⟨[⟨"dept", .int64, [.int 20, .null, .int 10]⟩, ⟨"name", .str, [.str "ann", .str "bob", .str "cy"]⟩]⟩

/-- Departments with their names. -/
def departments : Table :=
  ⟨[⟨"dept", .int64, [.int 10, .int 20]⟩, ⟨"name", .str, [.str "ops", .str "dev"]⟩]⟩

/-- Everybody with their departments. -/
def staffJoin : JoinPlan :=
  ⟨.left, "d", ["dept"], ["dept"]⟩

theorem fits_staffJoin : staffJoin.Fits staff departments where
  leftNames := by decide
  rightNames := by decide
  leftOrdinary := by simp [staff, Table.HasOrdinaryNames, Table.names, IsOrdinary, BeginsAsHelper]
  rightOrdinary := by
    simp [departments, Table.HasOrdinaryNames, Table.names, IsOrdinary, BeginsAsHelper]
  lengths := rfl
  keyed := List.cons_ne_nil _ _
  key := by
    intro k hk
    obtain rfl : k = ("dept", "dept") := List.mem_singleton.1 hk
    refine ⟨_, _, rfl, rfl, rfl, ?_, ?_⟩ <;> simp [Column.IsKey, Cell.isKey, ColumnType.isInteger]

theorem staff_joined : ∃ joined out rows,
    Engine.deferred.join staffJoin (.frame staff) (.frame departments) = .ok joined ∧
      joined.collect = .ok out ∧ out.names = ["dept", "name", "d.dept", "d.name"] ∧
      (some 0, some 1) ∈ rows ∧ (some 1, none) ∈ rows ∧
      staffJoin.mode.Lists (staffJoin.Matches staff departments) 3 2 rows := by
  obtain ⟨joined, out, rows, hjoined, hout, hcolumns, hlists⟩ :=
    (Engine.deferred.join_lists_matching_rows (Relation.standsFor_frame staff)
      (Relation.standsFor_frame departments) fits_staffJoin).1 (by
      simp [JoinPlan.Separates, staff, departments, staffJoin, Table.names, qualify])
  refine ⟨joined, out, rows, hjoined, hout, ?_, ?_, ?_, hlists⟩
  · rw [Table.names, hcolumns]
    rfl
  · refine (hlists.pair 0 1).2 ⟨by decide, by decide, fun k hk => ?_⟩
    obtain rfl : k = ("dept", "dept") := List.mem_singleton.1 hk
    exact ⟨_, _, .int 20, rfl, rfl, rfl, rfl, by simp⟩
  · refine (hlists.leftAlone 1).2 ⟨rfl, by decide, fun j _ hmatches => ?_⟩
    obtain ⟨c, d, x, hc, -, hx, -, hnull⟩ := hmatches ("dept", "dept") List.mem_cons_self
    cases hc
    cases hx
    exact hnull rfl

/-- A table whose second column is named like its first one with the alias `u`. -/
def taken : Table :=
  ⟨[⟨"a", .int64, [.int 1]⟩, ⟨"u.a", .int64, [.int 2]⟩]⟩

/-- The first column of that table alone. -/
def takenKey : Table :=
  ⟨[⟨"a", .int64, [.int 1]⟩]⟩

/-- The tables fit, and their rows match, but the name for the joined column is taken. -/
theorem taken_not_joined : JoinPlan.Fits ⟨.inner, "u", ["a"], ["a"]⟩ taken takenKey ∧
    JoinPlan.Matches ⟨.inner, "u", ["a"], ["a"]⟩ taken takenKey 0 0 ∧
    ∀ e : Engine, e.join ⟨.inner, "u", ["a"], ["a"]⟩ (.frame taken) (.frame takenKey) =
      .error (.join (.ambiguous "a" "u.a")) := by
  refine ⟨⟨by decide, by decide, ?_, ?_, rfl, List.cons_ne_nil _ _, ?_⟩, ?_, ?_⟩
  · simp [taken, Table.HasOrdinaryNames, Table.names, IsOrdinary, BeginsAsHelper]
  · simp [takenKey, Table.HasOrdinaryNames, Table.names, IsOrdinary, BeginsAsHelper]
  · intro k hk
    obtain rfl : k = ("a", "a") := List.mem_singleton.1 hk
    refine ⟨_, _, rfl, rfl, rfl, ?_, ?_⟩ <;> simp [Column.IsKey, Cell.isKey, ColumnType.isInteger]
  · intro k hk
    obtain rfl : k = ("a", "a") := List.mem_singleton.1 hk
    exact ⟨_, _, .int 1, rfl, rfl, rfl, rfl, by simp⟩
  · intro e
    cases e <;> rfl

end TableQuery
