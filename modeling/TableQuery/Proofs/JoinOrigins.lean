import TableQuery.Proofs.ChainNames

/-!
# Where the rows of joined tables come from

A row of joined tables is known by its row in each of them, where it has one. A join makes such rows
from pairs of rows, and leaves the cells of every column where they belong: the cell of a column in
a joined row is the cell in the row of its own table, and is missing where there is none.
-/

namespace TableQuery

open Name

/-- Rows of joined tables, each given by its row in every table, if it has one there. -/
abbrev Origins := List (List (Option Nat))

/-- The rows of a join with a further table, made from pairs of rows. -/
def joinOrigins (width : Nat) (rows : Origins) (pairs : List (Option Nat × Option Nat)) : Origins :=
  pairs.map fun (l, r) => (l.bind fun i => rows[i]?).getD (List.replicate width none) ++ [r]

/-- How the rows of a chain of tables come about, by the modes of the joins and the heights of the
tables: those of the first table are rows by themselves, and every join pairs the rows so far with
those of its table. -/
inductive IsOrigins : List JoinMode → List Nat → Origins → Prop where
  | load (n : Nat) : IsOrigins [] [n] ((List.range n).map fun i => [some i])
  | join {modes : List JoinMode} {heights : List Nat} {rows : Origins}
      (h : IsOrigins modes heights rows) (mode : JoinMode) (related : Nat → Nat → Bool) (m : Nat) :
      IsOrigins (modes ++ [mode]) (heights ++ [m])
        (joinOrigins heights.length rows (mode.pairs related rows.length m))

/-- The part of a joined row that is there before the join, or is missing whole. -/
theorem length_front {width : Nat} {rows : Origins} (hrows : ∀ row ∈ rows, row.length = width)
    (l : Option Nat) :
    ((l.bind fun i => rows[i]?).getD (List.replicate width none)).length = width := by
  cases hl : l.bind fun i => rows[i]? with
  | none => exact List.length_replicate
  | some row =>
    obtain ⟨i, -, hi⟩ := Option.bind_eq_some_iff.1 hl
    exact hrows row (List.mem_of_getElem? hi)

theorem IsOrigins.length_row {modes : List JoinMode} {heights : List Nat} {rows : Origins}
    (h : IsOrigins modes heights rows) : ∀ row ∈ rows, row.length = heights.length := by
  induction h with
  | load n =>
    intro row hrow
    obtain ⟨i, -, rfl⟩ := List.mem_map.1 hrow
    rfl
  | @join modes heights rows h mode related m ih =>
    intro row hrow
    obtain ⟨⟨l, r⟩, -, rfl⟩ := List.mem_map.1 hrow
    simp [length_front ih l]

/-- A column of the table at a place of a chain, under a name and spread over the joined rows. -/
def spreadColumn (rows : Origins) (i : Nat) (name : String) (c : Column) : Column :=
  ⟨name, c.type, rows.map fun row => (row[i]?.join.bind fun k => c.cells[k]?).getD .null⟩

/-- Joining a further table spreads the columns so far over the new rows. -/
theorem take_spreadColumn {width i : Nat} (hi : i < width) {rows : Origins}
    (hrows : ∀ row ∈ rows, row.length = width) (pairs : List (Option Nat × Option Nat))
    (name : String) (c : Column) :
    (spreadColumn rows i name c).take (pairs.map Prod.fst) =
      spreadColumn (joinOrigins width rows pairs) i name c := by
  simp only [spreadColumn, Column.take, joinOrigins, List.map_map, Column.mk.injEq, true_and]
  refine List.map_congr_left fun pair _ => ?_
  obtain ⟨l, r⟩ := pair
  cases l with
  | none => simp [hi, List.getElem?_append_left]
  | some k =>
    cases hk : rows[k]? with
    | none => simp [hk, hi, List.getElem?_append_left]
    | some row =>
      have : i < row.length := by rw [hrows row (List.mem_of_getElem? hk)]; exact hi
      simp [hk, this, List.getElem?_append_left]

/-- The columns of the further table are spread over the new rows. -/
theorem take_spread_last {width : Nat} {rows : Origins}
    (hrows : ∀ row ∈ rows, row.length = width) (pairs : List (Option Nat × Option Nat))
    (name : String) (c : Column) :
    Column.take (pairs.map Prod.snd) { c with name := name } =
      spreadColumn (joinOrigins width rows pairs) width name c := by
  simp only [spreadColumn, Column.take, joinOrigins, List.map_map, Column.mk.injEq, true_and]
  refine List.map_congr_left fun pair _ => ?_
  obtain ⟨l, r⟩ := pair
  simp [length_front hrows l]

/-- A table that holds the columns of the tables of a chain, under their names in the chain and
spread over joined rows. -/
structure Carries (parts : List (String × Table)) (rows : Origins) (t : Table) : Prop where
  nodup : t.names.Nodup
  names : t.names = chainNames (parts.map fun p => (p.1, p.2.names))
  height : t.height = rows.length
  rectangular : t.IsRectangular
  columns : ∀ i label table, parts[i]? = some (label, table) → ∀ c ∈ table.columns,
    spreadColumn rows i (physicalName ((parts.take i).map fun p => p.2.names) label c.name) c ∈
      t.columns

namespace Carries

/-- A table by itself. -/
theorem load {t : Table} (hnodup : t.names.Nodup) (ht : t.IsRectangular) (label : String) :
    Carries [(label, t)] ((List.range t.height).map fun i => [some i]) t := by
  have hbare : physicalName [] label = id := by
    funext c
    simp [physicalName]
  refine ⟨hnodup, ?_, by simp, ht, ?_⟩
  · simp [chainNames, namesBehind, hbare]
  · rintro (_ | i) label' table h c hc
    · cases h
      have hcells : (List.range t.height).map (fun k => c.cells[k]?.getD .null) = c.cells := by
        rw [← ht c hc]
        refine List.ext_getElem (by simp) fun k h₁ h₂ => ?_
        simp [h₂]
      have : spreadColumn ((List.range t.height).map fun i => [some i]) 0 c.name c = c := by
        simp [spreadColumn, Function.comp_def, hcells]
      rw [List.take_zero, List.map_nil, hbare, id, this]
      exact hc
    · cases h

/-- The names of a chain are ordinary if those of its tables do not begin as helpers' names do. -/
theorem hasOrdinaryNames {parts : List (String × Table)} {rows : Origins} {t : Table}
    (h : Carries parts rows t) (hparts : ∀ p ∈ parts, ∀ n ∈ p.2.names, ¬BeginsAsHelper n) :
    t.HasOrdinaryNames := by
  intro name hname
  rw [h.names] at hname
  obtain ⟨i, label, columns, c, hp, hc, rfl⟩ := mem_namesBehind.1 hname
  obtain ⟨⟨label', table⟩, hmem, he⟩ := List.mem_map.1 (List.mem_of_getElem? hp)
  cases he
  rcases physicalName_cases ([] ++ ((parts.map fun p => (p.1, p.2.names)).take i).map Prod.snd)
    label' c with e | e
  · rw [e]
    exact isOrdinary_of_not_begins (hparts _ hmem c hc)
  · rw [e]
    exact isOrdinary_qualify _ _

/-- A join goes on with the chain. -/
theorem join {parts : List (String × Table)} {rows : Origins} {left right out : Table}
    (h : Carries parts rows left) (hrows : ∀ row ∈ rows, row.length = parts.length)
    {label : String}
    (hnames : ∀ p ∈ parts ++ [(label, right)], ∀ n ∈ p.2.names, ¬BeginsAsHelper n)
    (hd : Distinguished ((parts ++ [(label, right)]).map fun p => (p.1, p.2.names)))
    {p : JoinPlan} (hp : p.label = label) (hjoin : Eager.join p left right = .ok out) :
    ∃ related, Carries (parts ++ [(label, right)])
      (joinOrigins parts.length rows (p.mode.pairs related rows.length right.height)) out := by
  have hleft := h.hasOrdinaryNames fun q hq => hnames q (List.mem_append_left _ hq)
  have hright : right.HasOrdinaryNames := fun n hn =>
    isOrdinary_of_not_begins (hnames (label, right) (by simp) n hn)
  obtain ⟨renames, related, hrenames, hcolumns, hnodup⟩ :=
    Eager.columns_of_join hleft hright hjoin
  rw [h.height] at hcolumns
  rw [List.map_append, List.map_singleton] at hd
  rw [h.names, hd.renamedRight_eq hp] at hrenames
  cases hrenames
  have hnew : ∀ c ∈ right.names, JoinPlan.newName (right.names.map fun c => (c, physicalName
      ((parts.map fun p => (p.1, p.2.names)).map Prod.snd) label c)) c =
      physicalName (parts.map fun p => p.2.names) label c := by
    intro c hc
    rw [JoinPlan.newName_map hc, List.map_map]
    rfl
  have hnames' : out.names = chainNames ((parts ++ [(label, right)]).map fun p =>
      (p.1, p.2.names)) := by
    rw [List.map_append, List.map_singleton, chainNames_concat, ← h.names, Table.names, hcolumns,
      Table.map_name_paired, Table.names_rename, List.map_congr_left hnew, List.map_map]
    rfl
  have hheight : out.height = (p.mode.pairs related rows.length right.height).length := by
    rw [← Table.height_rename (JoinPlan.newName _) right, ← h.height] at hcolumns ⊢
    exact Table.height_of_paired hcolumns
  refine ⟨related, hnodup, hnames', by simpa [joinOrigins] using hheight, ?_, ?_⟩
  · intro c hc
    rw [hcolumns] at hc
    rw [Table.length_cells_of_mem_paired hc, hheight]
  · intro i label' table hi c hc
    rw [hcolumns, Table.paired, List.mem_append]
    by_cases hlt : i < parts.length
    · rw [List.getElem?_append_left hlt] at hi
      refine .inl (List.mem_map.2 ⟨_, h.columns i label' table hi c hc, ?_⟩)
      rw [take_spreadColumn hlt hrows, List.take_append_of_le_length (Nat.le_of_lt hlt)]
    · have hlast : i = parts.length := by
        have := (List.getElem?_eq_some_iff.1 hi).1
        simp at this
        omega
      subst hlast
      rw [List.getElem?_concat_length] at hi
      cases hi
      refine .inr (List.mem_map.2 ⟨_, List.mem_map_of_mem hc, ?_⟩)
      rw [take_spread_last hrows, hnew _ (List.mem_map_of_mem hc), List.take_left]

end Carries

end TableQuery
