import TableQuery.Proofs.JoinedColumns

/-!
# Names along a chain of joins

A column of a joined table keeps its name unless one of the tables in front has a column of that
name; then it gets the label of its table in front. If the labels are pairwise different and no
column of the tables holds a dot, no new name is ever taken, and a column written with the label of
its table resolves to the name that it got.
-/

namespace TableQuery

open Name

/-- The name of a column behind tables with the given columns. -/
def physicalName (before : List (List String)) (label column : String) : String :=
  if before.any fun columns => columns.contains column then qualify label column else column

/-- The names of the columns of joined tables, each given by its label and columns, behind tables
with other columns. -/
def namesBehind (before : List (List String)) : List (String × List String) → List String
  | [] => []
  | (label, columns) :: rest =>
    columns.map (physicalName before label) ++ namesBehind (before ++ [columns]) rest

/-- The names of the columns of joined tables. -/
def chainNames (tables : List (String × List String)) : List String :=
  namesBehind [] tables

theorem namesBehind_concat (before : List (List String)) (tables : List (String × List String))
    (label : String) (columns : List String) :
    namesBehind before (tables ++ [(label, columns)]) =
      namesBehind before tables ++
        columns.map (physicalName (before ++ tables.map Prod.snd) label) := by
  induction tables generalizing before with
  | nil => simp [namesBehind]
  | cons t tables ih =>
    obtain ⟨label', columns'⟩ := t
    simp [namesBehind, ih]

theorem chainNames_concat (tables : List (String × List String)) (label : String)
    (columns : List String) :
    chainNames (tables ++ [(label, columns)]) =
      chainNames tables ++ columns.map (physicalName (tables.map Prod.snd) label) := by
  simpa [chainNames] using namesBehind_concat [] tables label columns

theorem mem_namesBehind {before : List (List String)} {tables : List (String × List String)}
    {name : String} :
    name ∈ namesBehind before tables ↔
      ∃ i label columns column, tables[i]? = some (label, columns) ∧ column ∈ columns ∧
        name = physicalName (before ++ (tables.take i).map Prod.snd) label column := by
  induction tables generalizing before with
  | nil => simp [namesBehind]
  | cons t tables ih =>
    obtain ⟨label, columns⟩ := t
    simp only [namesBehind, List.mem_append, List.mem_map, ih]
    constructor
    · rintro (⟨column, hc, rfl⟩ | ⟨i, label', columns', column, ht, hc, rfl⟩)
      · exact ⟨0, label, columns, column, rfl, hc, by simp⟩
      · exact ⟨i + 1, label', columns', column, ht, hc, by simp⟩
    · rintro ⟨_ | i, label', columns', column, ht, hc, rfl⟩
      · cases ht
        exact .inl ⟨column, hc, by simp⟩
      · exact .inr ⟨i, label', columns', column, ht, hc, by simp⟩

/-- Tables that can be told apart by their labels, and whose columns hold no dot. -/
structure Distinguished (tables : List (String × List String)) : Prop where
  named : ∀ t ∈ tables, t.1 ≠ ""
  distinct : (tables.map Prod.fst).Nodup
  bare : ∀ t ∈ tables, ∀ column ∈ t.2, IsBare column

theorem physicalName_cases (before : List (List String)) (label column : String) :
    physicalName before label column = column ∨
      physicalName before label column = qualify label column := by
  unfold physicalName
  split
  · exact .inr rfl
  · exact .inl rfl

theorem mem_namesBehind_of_first {before : List (List String)}
    {tables : List (String × List String)} {column : String}
    (hbefore : ∀ columns ∈ before, column ∉ columns) {t : String × List String} (ht : t ∈ tables)
    (hc : column ∈ t.2) : column ∈ namesBehind before tables := by
  induction tables generalizing before with
  | nil => cases ht
  | cons u tables ih =>
    obtain ⟨label, columns⟩ := u
    rw [namesBehind, List.mem_append]
    by_cases hu : column ∈ columns
    · refine .inl (List.mem_map.2 ⟨column, hu, ?_⟩)
      have : (before.any fun columns => columns.contains column) = false := by
        simpa using hbefore
      simp only [physicalName, this, Bool.false_eq_true, if_false]
    · refine .inr (ih ?_ ?_)
      · intro columns' hmem
        rcases List.mem_append.1 hmem with hmem | hmem
        · exact hbefore columns' hmem
        · obtain rfl := List.mem_singleton.1 hmem
          exact hu
      · rcases List.mem_cons.1 ht with rfl | ht
        · exact absurd hc hu
        · exact ht

/-- A bare name is among those of a chain if one of its tables has that column. -/
theorem mem_chainNames_iff {tables : List (String × List String)} {column : String}
    (hbare : IsBare column) :
    column ∈ chainNames tables ↔ ∃ t ∈ tables, column ∈ t.2 := by
  constructor
  · intro hmem
    obtain ⟨i, label, columns, c, ht, hc, rfl⟩ := mem_namesBehind.1 hmem
    have hmem := List.mem_of_getElem? ht
    rcases physicalName_cases ([] ++ (tables.take i).map Prod.snd) label c with e | e
    · rw [e]
      exact ⟨_, hmem, hc⟩
    · rw [e] at hbare
      exact absurd hbare (not_isBare_qualify label c)
  · rintro ⟨t, ht, hc⟩
    exact mem_namesBehind_of_first (by simp) ht hc

namespace Distinguished

variable {tables : List (String × List String)}

/-- A qualified name is among those of a chain only if the column of that table got it. -/
theorem of_qualify_mem (h : Distinguished tables) {label column : String} (hlabel : label ≠ "")
    (hbare : IsBare column) (hmem : qualify label column ∈ chainNames tables) :
    ∃ i columns, tables[i]? = some (label, columns) ∧
      physicalName ((tables.take i).map Prod.snd) label column = qualify label column := by
  obtain ⟨i, label', columns, c, ht, hc, he⟩ := mem_namesBehind.1 hmem
  have hmem := List.mem_of_getElem? ht
  have hbare' := h.bare _ hmem c hc
  rw [List.nil_append] at he
  rcases physicalName_cases ((tables.take i).map Prod.snd) label' c with e | e
  · rw [e] at he
    exact absurd he (qualify_ne hbare')
  · have heq := he.trans e
    obtain ⟨rfl, rfl⟩ := qualify_inj hlabel (h.named _ hmem) hbare hbare' heq
    exact ⟨i, columns, ht, e⟩

theorem of_concat {t : String × List String} (h : Distinguished (tables ++ [t])) :
    Distinguished tables := by
  refine ⟨fun u hu => h.named u (List.mem_append_left _ hu), ?_,
    fun u hu => h.bare u (List.mem_append_left _ hu)⟩
  have := h.distinct
  rw [List.map_append, List.nodup_append] at this
  exact this.1

/-- A further table finds a new name for each of its columns. -/
theorem renamed_eq {label : String} {columns : List String}
    (h : Distinguished (tables ++ [(label, columns)])) {p : JoinPlan} (hp : p.label = label)
    {column : String} (hc : column ∈ columns) :
    p.renamed (chainNames tables) columns column =
      .ok (physicalName (tables.map Prod.snd) label column) := by
  have hlast : (label, columns) ∈ tables ++ [(label, columns)] := by simp
  have hbare := h.bare _ hlast column hc
  have htaken : (chainNames tables).contains column =
      (tables.map Prod.snd).any fun columns => columns.contains column := by
    rw [Bool.eq_iff_iff]
    simp [mem_chainNames_iff hbare]
  have hleft : qualify label column ∉ chainNames tables := by
    intro hmem
    obtain ⟨i, columns', ht, -⟩ := h.of_concat.of_qualify_mem (h.named _ hlast) hbare hmem
    have hlabel : label ∈ tables.map Prod.fst :=
      List.mem_map.2 ⟨_, List.mem_of_getElem? ht, rfl⟩
    have := h.distinct
    rw [List.map_append, List.nodup_append] at this
    exact this.2.2 label hlabel label (by simp) rfl
  have hright : qualify label column ∉ columns := fun hmem =>
    qualify_ne (h.bare _ hlast _ hmem) rfl
  unfold JoinPlan.renamed physicalName
  rw [htaken, hp]
  cases (tables.map Prod.snd).any fun columns => columns.contains column with
  | false => simp
  | true => simp [hleft, hright]

/-- No new name is taken along a chain. -/
theorem renamedRight_eq {label : String} {columns : List String}
    (h : Distinguished (tables ++ [(label, columns)])) {p : JoinPlan} (hp : p.label = label) :
    p.renamedRight (chainNames tables) columns =
      .ok (columns.map fun c => (c, physicalName (tables.map Prod.snd) label c)) := by
  refine mapM_eq_ok_map fun column hc => ?_
  rw [h.renamed_eq hp hc]
  rfl

theorem label_inj (h : Distinguished tables) {i j : Nat} {label : String}
    {columns columns' : List String} (hi : tables[i]? = some (label, columns))
    (hj : tables[j]? = some (label, columns')) : i = j := by
  have hlabel {k : Nat} {cs : List String} (hk : tables[k]? = some (label, cs)) :
      (tables.map Prod.fst)[k]? = some label := by
    simp [hk]
  have hlt : i < (tables.map Prod.fst).length := by
    have := (List.getElem?_eq_some_iff.1 hi).1
    simpa using this
  exact (List.getElem?_inj hlt h.distinct).1 ((hlabel hi).trans (hlabel hj).symm)

/-- A column written with the label of its table resolves to the name that it got. -/
theorem resolve?_qualify (h : Distinguished tables) {i : Nat} {label column : String}
    {columns : List String} (ht : tables[i]? = some (label, columns)) (hc : column ∈ columns) :
    resolve? (qualify label column) (chainNames tables) =
      some (physicalName ((tables.take i).map Prod.snd) label column) := by
  have hmem := List.mem_of_getElem? ht
  have hlabel := h.named _ hmem
  have hbare := h.bare _ hmem column hc
  have hown : physicalName ((tables.take i).map Prod.snd) label column ∈ chainNames tables :=
    mem_namesBehind.2 ⟨i, label, columns, column, ht, hc, by simp⟩
  rcases physicalName_cases ((tables.take i).map Prod.snd) label column with e | e
  · have hnot : qualify label column ∉ chainNames tables := by
      intro hq
      obtain ⟨j, columns', hj, e'⟩ := h.of_qualify_mem hlabel hbare hq
      obtain rfl := h.label_inj ht hj
      exact qualify_ne hbare (e'.symm.trans e)
    have hne : (column != qualify label column) = true := by
      simpa using (qualify_ne hbare).symm
    rw [e] at hown ⊢
    simp [resolve?, hnot, unqualified_qualify hlabel hbare, hne, hown]
  · rw [e] at hown ⊢
    exact resolve?_of_mem hown

end Distinguished

end TableQuery
