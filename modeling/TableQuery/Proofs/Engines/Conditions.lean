import TableQuery.Proofs.BasicTables
import TableQuery.Proofs.Membership
import TableQuery.Proofs.PlanNames
import TableQuery.Proofs.ReadColumns

/-!
# Expressions on both engines

One engine evaluates an expression row by row, on values; the other one makes a formula of it, which
is typed and then evaluated on whole columns of cells. Where columns of one type are compared with
one another or with literals of that type, and the comparisons are joined by logical operators, the
two agree: an expression denotes columns on both or on neither, and in every row the formula gives
the cell of the value.
-/

namespace TableQuery

namespace Spread

variable {α β : Type} {n : Nat}

/-- Whether a value stands over `n` rows: the same in all of them, or with a part for each. -/
def IsOver (n : Nat) : Spread α → Prop
  | .constant _ => True
  | .perRow xs => xs.length = n
  | .perGroup _ => False

@[simp]
theorem toList_map (f : α → β) (a : Spread α) : (a.map f).toList n = (a.toList n).map f := by
  cases a <;> simp [map, toList]

theorem IsOver.map {a : Spread α} (h : a.IsOver n) (f : α → β) : (a.map f).IsOver n := by
  cases a with
  | constant x => trivial
  | perRow xs => simpa [Spread.map, IsOver] using h
  | perGroup xs => cases h

/-- Two values over the same rows go together row by row. -/
theorem IsOver.pair {a : Spread α} {b : Spread β} (ha : a.IsOver n) (hb : b.IsOver n) :
    ∃ c, a.pair b = .ok c ∧ c.IsOver n ∧ c.toList n = (a.toList n).zip (b.toList n) := by
  cases a with
  | perGroup xs => cases ha
  | constant x =>
    cases b with
    | perGroup ys => cases hb
    | constant y => exact ⟨_, rfl, trivial, by simp [toList, List.zip_replicate']⟩
    | perRow ys =>
      have hlength : ys.length = n := hb
      refine ⟨_, rfl, by simpa [IsOver] using hb, ?_⟩
      subst hlength
      refine List.ext_getElem (by simp [toList]) fun i h₁ h₂ => ?_
      simp [toList]
  | perRow xs =>
    have hlength : xs.length = n := ha
    cases b with
    | perGroup ys => cases hb
    | constant y =>
      refine ⟨_, rfl, by simpa [IsOver] using ha, ?_⟩
      subst hlength
      refine List.ext_getElem (by simp [toList]) fun i h₁ h₂ => ?_
      simp [toList]
    | perRow ys =>
      have hlength' : ys.length = n := hb
      exact ⟨_, rfl, by simp [IsOver, hlength, hlength'], rfl⟩

end Spread

namespace Cell

@[simp]
theorem cast_self (type : ColumnType) (c : Cell) : c.cast type type = c := by
  simp [cast]

end Cell

namespace Values

@[simp]
theorem cast_self (v : Values) : v.cast v.type = v := by
  have hcast : Cell.cast v.type v.type = id := by
    funext c
    exact Cell.cast_self v.type c
  obtain ⟨type, cells⟩ := v
  cases cells <;> simp_all [cast, Spread.map]

@[simp]
theorem bring_self (type : ColumnType) (v : Values) : v.bring type type = v := by
  simp [bring]

end Values

/-! ## What a formula and a bound expression give -/

/-- The formula has a type, and in every row of the table it has the cell of a value of that type.
-/
structure Formula.Gives (t : Table) (f : Formula) (type : ColumnType) (value : Nat → Scalar) :
    Prop where
  typed : f.typeOver t.schema = .ok type
  fits : ∀ row, (value row).fits type = true
  eval : ∃ cells, f.eval t.schema t none = .ok ⟨type, cells⟩ ∧ cells.IsOver t.height ∧
    cells.toList t.height = (List.range t.height).map fun row => (value row).cell

/-- The bound expression reads columns of the table, and has a value in every row. -/
structure Bound.Gives (t : Table) (x : Bound) (value : Nat → Scalar) : Prop where
  reads : ∀ name ∈ x.reads, name ∈ t.names
  eval : ∀ d : Loaded, d.Holds t x.reads → ∀ row, x.eval d (.single row) = .ok (.one (value row))

/-! ## Operators -/

/-- Whether an operator gives a truth value for operands of a type. -/
def BinaryOp.Judges (op : BinaryOp) (type : ColumnType) : Prop :=
  op.isComparison = true ∨ ((op = .and ∨ op = .or) ∧ type = .bool)

theorem BinaryOp.judges_eq (type : ColumnType) : BinaryOp.eq.Judges type :=
  .inl rfl

theorem BinaryOp.judges_or : BinaryOp.or.Judges .bool :=
  .inr ⟨.inr rfl, rfl⟩

namespace Scalar

/-- The truth value that an operator gives for two values. -/
def judged (op : BinaryOp) (x y : Scalar) : Scalar :=
  match binary op x y with
  | .ok v => v
  | .error _ => .null

variable {op : BinaryOp} {type : ColumnType} {x y : Scalar}

theorem comparison_of_compare? (op : BinaryOp) {o : Ordering} (hnx : x.isNull = false)
    (hny : y.isNull = false) (h : compare? x y = some o) :
    comparison op x y = .ok (.bool (op.accepts o)) := by
  cases x <;> cases y <;> simp_all [isNull, comparison]

/-- The comparison of two values of one type. -/
theorem comparison_of_fits (hx : x.fits type = true) (hy : y.fits type = true) :
    comparison op x y =
      .ok (if x.isNull || y.isNull then .null else .bool (op.accepts (Cell.order x.cell y.cell))) := by
  cases hnx : x.isNull with
  | true =>
    cases x <;> simp_all [isNull, comparison]
  | false =>
    cases hny : y.isNull with
    | true => cases x <;> cases y <;> simp_all [isNull, comparison]
    | false =>
      rw [comparison_of_compare? op hnx hny (compare?_of_fits hx hy hnx hny)]
      rfl

theorem isVerdict_of_fits (hx : x.fits .bool = true) : x.IsVerdict := by
  cases x with
  | null => exact .null
  | bool b => exact .bool b
  | _ => cases hx

theorem binary_of_judges (hop : op.Judges type) (hx : x.fits type = true)
    (hy : y.fits type = true) : binary op x y = .ok (judged op x y) := by
  have hok : ∃ v, binary op x y = .ok v := by
    rcases hop with hop | ⟨rfl | rfl, -⟩
    · have hbinary : binary op x y = comparison op x y := by
        cases op <;> first | rfl | cases hop
      exact ⟨_, hbinary.trans (comparison_of_fits hx hy)⟩
    · exact ⟨_, rfl⟩
    · exact ⟨_, rfl⟩
  obtain ⟨v, hv⟩ := hok
  simp only [judged, hv]

theorem judged_of_comparison (hop : op.isComparison = true) (hx : x.fits type = true)
    (hy : y.fits type = true) : judged op x y =
      if x.isNull || y.isNull then .null else .bool (op.accepts (Cell.order x.cell y.cell)) := by
  have hbinary : binary op x y = comparison op x y := by
    cases op <;> first | rfl | cases hop
  simp only [judged, hbinary, comparison_of_fits hx hy]

@[simp]
theorem judged_and (x y : Scalar) : judged .and x y = ofTruth (Truth.both x.truth? y.truth?) :=
  rfl

@[simp]
theorem judged_or (x y : Scalar) : judged .or x y = ofTruth (Truth.either x.truth? y.truth?) :=
  rfl

theorem fits_judged (hop : op.Judges type) (hx : x.fits type = true) (hy : y.fits type = true) :
    (judged op x y).fits .bool = true := by
  rcases hop with hop | ⟨rfl | rfl, -⟩
  · rw [judged_of_comparison hop hx hy]
    split <;> rfl
  · exact fits_ofTruth _
  · exact fits_ofTruth _

/-- An operator gives the cell of the truth value for the cells of two values. -/
theorem cell_judged (hop : op.Judges type) (hx : x.fits type = true) (hy : y.fits type = true)
    (fixed : Fixed) : Cell.binary type op fixed x.cell y.cell = (judged op x y).cell := by
  rcases hop with hop | ⟨rfl | rfl, rfl⟩
  · rw [judged_of_comparison hop hx hy]
    have hbinary : Cell.binary type op fixed x.cell y.cell =
        if x.isNull || y.isNull then .null else .bool (Cell.compared op fixed x.cell y.cell) := by
      rw [← isNull_cell x, ← isNull_cell y]
      cases op <;> first | rfl | cases hop
    have hcompared : Cell.compared op fixed x.cell y.cell =
        op.accepts (Cell.order x.cell y.cell) := by
      cases x with
      | float v => cases hx
      | _ => cases fixed <;> rfl
    rw [hbinary, hcompared]
    split <;> rfl
  · rw [judged_and, cell_ofTruth, ← truth?_cell x, ← truth?_cell y]
    cases x <;> cases y <;> first | rfl | cases hx
  · rw [judged_or, cell_ofTruth, ← truth?_cell x, ← truth?_cell y]
    cases x <;> cases y <;> first | rfl | cases hx

theorem cell_complement (hx : x.fits .bool = true) :
    Cell.complement .bool x.cell = x.complement.cell := by
  cases x <;> first | rfl | cases hx

theorem fits_complement (x : Scalar) : x.complement.fits .bool = true :=
  fits_ofTruth _

end Scalar

namespace Formula.Gives

variable {t : Table} {f : Formula} {type : ColumnType} {g : Nat → Scalar}

theorem congr (h : f.Gives t type g) {g' : Nat → Scalar} (hg : ∀ row, g' row = g row) :
    f.Gives t type g' := by
  obtain rfl : g' = g := funext hg
  exact h

theorem const {x : Scalar} (hx : x.fits type = true) (hne : x.isNull = false) :
    (Formula.const x).Gives t type fun _ => x := by
  have htype : (Cell.ofScalar x).1 = type := by
    cases x <;> simp_all [Scalar.fits, Scalar.isNull, Cell.ofScalar]
  refine ⟨by rw [typeOver, htype], fun _ => hx, .constant x.cell, ?_, trivial, ?_⟩
  · rw [Formula.eval, htype]
    rfl
  · simp [Spread.toList]

theorem column (ht : t.IsBasic) {name : String} {c : Column} (hc : t.column name = .ok c)
    (htype : t.schema.typeOf name = .ok c.type) : (Formula.column name).Gives t c.type c.value := by
  obtain ⟨hmem, -⟩ := Table.mem_of_column hc
  have hbasic := ht.columns c hmem
  have hlength := ht.rectangular c hmem
  refine ⟨htype, hbasic.fits_value, .perRow c.cells, ?_, hlength, hbasic.cells_eq_values hlength⟩
  rw [Table.eval_column, hc]
  rfl

/-- The opposite of a formula, where the cells turned around are those of values. -/
theorem not_of_cell {h : Nat → Scalar} (hf : f.Gives t type g)
    (htype : type.complemented = .ok type) (hfits : ∀ row, (h row).fits type = true)
    (hcell : ∀ row, Cell.complement type (g row).cell = (h row).cell) :
    (Formula.not f).Gives t type h := by
  obtain ⟨cells, heval, hover, hcells⟩ := hf.eval
  refine ⟨?_, hfits, cells.map (Cell.complement type), ?_, hover.map _, ?_⟩
  · rw [typeOver, hf.typed, ok_bind, htype]
  · rw [Formula.eval, heval, ok_bind, htype]
    rfl
  · rw [Spread.toList_map, hcells, List.map_map]
    exact List.map_congr_left fun row _ => hcell row

theorem not (h : f.Gives t .bool g) : (Formula.not f).Gives t .bool fun row => (g row).complement :=
  h.not_of_cell rfl (fun _ => Scalar.fits_complement _) fun row => Scalar.cell_complement (h.fits row)

theorem isNull (h : f.Gives t type g) (negated : Bool) :
    (Formula.isNull f negated).Gives t .bool fun row => .bool ((g row).isNull != negated) := by
  obtain ⟨cells, heval, hover, hcells⟩ := h.eval
  refine ⟨?_, fun row => rfl, cells.map fun c => .bool (c.isNull != negated), ?_, hover.map _, ?_⟩
  · rw [typeOver, h.typed]
    rfl
  · rw [Formula.eval, heval]
    rfl
  · rw [Spread.toList_map, hcells, List.map_map]
    refine List.map_congr_left fun row _ => ?_
    rw [Function.comp_apply, Scalar.isNull_cell]
    rfl

theorem operands_of_judges {op : BinaryOp} (hop : op.Judges type) :
    ColumnType.operands op type type = .ok (type, .bool) := by
  rcases hop with hop | ⟨rfl | rfl, rfl⟩
  · have hdiv : op ≠ .div := by
      rintro rfl
      cases hop
    simp [ColumnType.operands, ColumnType.common?, hop, hdiv]
  · rfl
  · rfl

theorem promised_of_judges {op : BinaryOp} (hop : op.Judges type) (l r : Bool) :
    ColumnType.promised op (type, l) (type, r) = .ok .bool := by
  rcases hop with hop | ⟨rfl | rfl, rfl⟩
  · rw [ColumnType.promised, if_pos hop]
    rfl
  · rfl
  · rfl

/-- An operator on two formulas of one type, where it gives the cells of values. -/
theorem binary_of_cell {op : BinaryOp} {result : ColumnType} {f' : Formula} {g' k : Nat → Scalar}
    (h : f.Gives t type g) (h' : f'.Gives t type g')
    (hoperands : ColumnType.operands op type type = .ok (type, result))
    (hpromised : ∀ l r, ColumnType.promised op (type, l) (type, r) = .ok result)
    (hfits : ∀ row, (k row).fits result = true)
    (hcell : ∀ row fixed, Cell.binary type op fixed (g row).cell (g' row).cell = (k row).cell) :
    (Formula.binary op f f').Gives t result k := by
  obtain ⟨cells, heval, hover, hcells⟩ := h.eval
  obtain ⟨cells', heval', hover', hcells'⟩ := h'.eval
  obtain ⟨pairs, hpairs, hoverPairs, hlist⟩ := hover.pair hover'
  refine ⟨?_, hfits, ?_⟩
  · simp only [typeOver, h.typed, h'.typed, ok_bind, hpromised]
  · refine ⟨pairs.map fun c => Cell.binary type op (if f.isKnown && f'.isKnown then .both
      else Fixed.ofOperands cells cells') c.1 c.2, ?_, hoverPairs.map _, ?_⟩
    · simp only [Formula.eval, h.typed, h'.typed, ok_bind, hoperands, heval, heval',
        Values.bring_self, Values.binary]
      rw [show (Values.cast type ⟨type, cells⟩) = ⟨type, cells⟩ from Values.cast_self ⟨type, cells⟩,
        show (Values.cast type ⟨type, cells'⟩) = ⟨type, cells'⟩ from
          Values.cast_self ⟨type, cells'⟩, hpairs]
      rfl
    · rw [Spread.toList_map, hlist, hcells, hcells', List.zip_map', List.map_map]
      exact List.map_congr_left fun row _ => hcell row _

/-- An operator on two formulas. -/
theorem binary {op : BinaryOp} (hop : op.Judges type) {f' : Formula} {g' : Nat → Scalar}
    (h : f.Gives t type g) (h' : f'.Gives t type g') :
    (Formula.binary op f f').Gives t .bool fun row => Scalar.judged op (g row) (g' row) :=
  h.binary_of_cell h' (operands_of_judges hop) (promised_of_judges hop)
    (fun row => Scalar.fits_judged hop (h.fits row) (h'.fits row))
    fun row fixed => Scalar.cell_judged hop (h.fits row) (h'.fits row) fixed

end Formula.Gives

namespace Formula.Gives

variable {t : Table} {type : ColumnType} {target : Formula} {g : Nat → Scalar}

/-- The disjunction of comparisons, going on from what is known so far. -/
theorem hits (htarget : target.Gives t type g) {items : List Formula}
    {values : List (Nat → Scalar)} (hitems : List.Forall₂ (fun f v => f.Gives t type v) items values)
    {before : Formula} {found : Nat → Scalar} (hbefore : before.Gives t .bool found) :
    (items.foldl (fun hits item => .binary .or hits (.binary .eq target item)) before).Gives t .bool
      fun row => values.foldl (fun found v =>
        Scalar.judged .or found (Scalar.judged .eq (g row) (v row))) (found row) := by
  induction hitems generalizing before found with
  | nil => exact hbefore
  | cons hitem _ ih =>
    have heq := binary (BinaryOp.judges_eq type) htarget hitem
    exact ih (binary BinaryOp.judges_or hbefore heq)

end Formula.Gives

/-- Whether a value is among others. -/
def Scalar.among (x : Scalar) (items : List Scalar) : Scalar :=
  items.foldl (fun found y => judged .or found (judged .eq x y))
    (if x.isNull then .null else .bool false)

/-- The first comparison tells as much as is known before it. -/
theorem Scalar.among_cons {type : ColumnType} {x y : Scalar} (hx : x.fits type = true)
    (hy : y.fits type = true) (items : List Scalar) : x.among (y :: items) =
      items.foldl (fun found z => judged .or found (judged .eq x z)) (judged .eq x y) := by
  have hfirst : judged .or (if x.isNull then .null else .bool false) (judged .eq x y) =
      judged .eq x y := by
    have hfits := fits_judged (BinaryOp.judges_eq type) hx hy
    rw [judged_or]
    cases hnull : x.isNull with
    | true =>
      have hjudged : judged .eq x y = .null := by
        rw [judged_of_comparison rfl hx hy, hnull]
        rfl
      rw [hjudged]
      rfl
    | false =>
      generalize judged .eq x y = v at hfits
      cases v with
      | null => rfl
      | bool b => cases b <;> rfl
      | int i => cases hfits
      | float z => cases hfits
      | str z => cases hfits
  rw [among, List.foldl_cons, hfirst]

namespace Formula.Gives

variable {t : Table} {type : ColumnType} {target : Formula} {g : Nat → Scalar}

theorem anyEqual (htarget : target.Gives t type g) {items : List Formula}
    {values : List (Nat → Scalar)} (hitems : List.Forall₂ (fun f v => f.Gives t type v) items values)
    (hne : items ≠ []) :
    (Formula.anyEqual target items).Gives t .bool
      fun row => (g row).among (values.map fun v => v row) := by
  cases hitems with
  | nil => exact absurd rfl hne
  | cons hitem hitems =>
    have hfirst := binary (BinaryOp.judges_eq type) htarget hitem
    have hall := htarget.hits hitems hfirst
    refine hall.congr fun row => ?_
    rw [List.map_cons, Scalar.among_cons (htarget.fits row) (hitem.fits row), List.foldl_map]

end Formula.Gives

namespace Bound

namespace Gives

variable {t : Table} {x : Bound} {g : Nat → Scalar}

theorem const (v : Scalar) : (Bound.const v).Gives t fun _ => v :=
  ⟨by simp [Bound.reads], fun _ _ _ => rfl⟩

theorem column {name : String} {c : Column} (hc : t.column name = .ok c) :
    (Bound.column name).Gives t c.value := by
  obtain ⟨hmem, rfl⟩ := Table.mem_of_column hc
  refine ⟨?_, fun d hd row => ?_⟩
  · intro name hname
    rw [List.mem_singleton.1 hname]
    exact List.mem_map_of_mem hmem
  · obtain ⟨c', hc', hvalues⟩ := hd c.name (List.mem_singleton_self _)
    rw [hc] at hc'
    cases hc'
    simp only [Bound.eval, Rows.column, hvalues, ok_bind, List.getElem?_toArray]
    rfl

theorem not (h : x.Gives t g) : (Bound.not x).Gives t fun row => (g row).complement := by
  refine ⟨h.reads, fun d hd row => ?_⟩
  simp only [Bound.eval, h.eval d hd row]
  rfl

theorem isNull (h : x.Gives t g) (negated : Bool) :
    (Bound.isNull x negated).Gives t fun row => .bool ((g row).isNull != negated) := by
  refine ⟨h.reads, fun d hd row => ?_⟩
  simp only [Bound.eval, h.eval d hd row]
  rfl

/-- An operator on two bound expressions, where it gives values. -/
theorem binary_of_ok {op : BinaryOp} {y : Bound} {g' k : Nat → Scalar} (h : x.Gives t g)
    (h' : y.Gives t g') (hk : ∀ row, Scalar.binary op (g row) (g' row) = .ok (k row)) :
    (Bound.binary op x y).Gives t k := by
  refine ⟨?_, fun d hd row => ?_⟩
  · intro name hname
    rcases List.mem_append.1 hname with hname | hname
    · exact h.reads name hname
    · exact h'.reads name hname
  · have hx := h.eval d (holds_mono hd fun _ => List.mem_append_left _) row
    have hy := h'.eval d (holds_mono hd fun _ => List.mem_append_right _) row
    simp only [Bound.eval, hx, hy, ok_bind, Datum.zipM, hk]
    rfl

theorem binary {op : BinaryOp} {type : ColumnType} (hop : op.Judges type) {y : Bound}
    {g' : Nat → Scalar} (h : x.Gives t g) (h' : y.Gives t g')
    (hfits : ∀ row, (g row).fits type = true) (hfits' : ∀ row, (g' row).fits type = true) :
    (Bound.binary op x y).Gives t fun row => Scalar.judged op (g row) (g' row) :=
  h.binary_of_ok h' fun row => Scalar.binary_of_judges hop (hfits row) (hfits' row)

end Gives

/-- A value that has been found is a disjunction, as a hit has the type of a truth value. -/
theorem found_eq_judged {before hit : Scalar} (hbefore : before.fits .bool = true)
    (hhit : hit.fits .bool = true) : found before hit = Scalar.judged .or before hit := by
  have h := found_eq_or (Scalar.isVerdict_of_fits hbefore) (Scalar.isVerdict_of_fits hhit)
  exact Except.ok.inj (h.trans (Scalar.binary_of_judges BinaryOp.judges_or hbefore hhit))

/-- Items that are compared one after the other. -/
theorem evalItems_of_gives {t : Table} {type : ColumnType} {d : Loaded} {v : Scalar}
    (hv : v.fits type = true) {items : List Bound} {values : List (Nat → Scalar)}
    (hitems : List.Forall₂ (fun x g => x.Gives t g ∧ ∀ row, (g row).fits type = true) items values)
    (hd : d.Holds t (readsOfAll items)) (row : Nat) {before : Scalar}
    (hbefore : before.fits .bool = true) :
    evalItems d (.single row) (.one v) (.one before) items =
      .ok (.one (values.foldl (fun found g =>
        Scalar.judged .or found (Scalar.judged .eq v (g row))) before)) := by
  induction hitems generalizing before with
  | nil => rfl
  | cons hitem _ ih =>
    have hx := hitem.1.eval d (holds_mono hd fun _ => List.mem_append_left _) row
    have heq := BinaryOp.judges_eq type
    have hhit := Scalar.fits_judged heq hv (hitem.2 row)
    have hnow := Scalar.fits_judged BinaryOp.judges_or hbefore hhit
    have hrest := ih (holds_mono hd fun _ => List.mem_append_right _) hnow
    simp only [evalItems, hx, ok_bind, Datum.zipM, Scalar.binary_of_judges heq hv (hitem.2 row)]
    exact (congrArg (fun now => evalItems d (.single row) (.one v) (.one now) _)
      (found_eq_judged hbefore hhit)).trans hrest

theorem Gives.inList {t : Table} {x : Bound} {g : Nat → Scalar} {type : ColumnType}
    (h : x.Gives t g) (hfits : ∀ row, (g row).fits type = true) {items : List Bound}
    {values : List (Nat → Scalar)}
    (hitems : List.Forall₂ (fun x g => x.Gives t g ∧ ∀ row, (g row).fits type = true) items values)
    (hreads : ∀ name ∈ readsOfAll items, name ∈ t.names) (negated : Bool) :
    (Bound.inList x items negated).Gives t fun row =>
      if negated then ((g row).among (values.map fun v => v row)).complement
      else (g row).among (values.map fun v => v row) := by
  refine ⟨?_, fun d hd row => ?_⟩
  · intro name hname
    rcases List.mem_append.1 hname with hname | hname
    · exact h.reads name hname
    · exact hreads name hname
  · have hx := h.eval d (holds_mono hd fun _ => List.mem_append_left _) row
    have hbefore : Scalar.fits .bool (if (g row).isNull then .null else .bool false) = true := by
      split <;> rfl
    have hhits := evalItems_of_gives (hfits row) hitems
      (holds_mono hd fun _ => List.mem_append_right _) row hbefore
    simp only [Bound.eval, hx, ok_bind, Datum.map, hhits, Scalar.among, List.foldl_map]
    cases negated <;> rfl

end Bound

/-! ## Typed expressions -/

/-- Expressions over columns of the given types that compare columns and literals of one type, ask
whether values are missing, and join truth values. A column may also denote nothing. -/
inductive Expr.HasType (s : Schema) : Expr → ColumnType → Prop where
  | literal {x : Scalar} {type : ColumnType} (hx : x.fits type = true) (hne : x.isNull = false) :
      HasType s (.literal x) type
  | column {name : String} {type : ColumnType}
      (h : ∀ c, Name.resolve? name (s.map Prod.fst) = some c → s.typeOf c = .ok type) :
      HasType s (.column name) type
  | not {e : Expr} (h : HasType s e .bool) : HasType s (.not e) .bool
  | binary {op : BinaryOp} {type : ColumnType} {l r : Expr} (hop : op.Judges type)
      (hl : HasType s l type) (hr : HasType s r type) : HasType s (.binary op l r) .bool
  | isNull {e : Expr} {type : ColumnType} (h : HasType s e type) (negated : Bool) :
      HasType s (.isNull e negated) .bool
  | inList {e : Expr} {type : ColumnType} {items : List Expr} (h : HasType s e type)
      (hne : items ≠ []) (hitems : ∀ i ∈ items, HasType s i type) (negated : Bool) :
      HasType s (.inList e items negated) .bool

/-- A schema tells the types of the columns, and which of them there are. -/
theorem Table.typeOf_schema (t : Table) (name : String) :
    t.schema.typeOf name = (t.column name).map Column.type := by
  obtain ⟨columns⟩ := t
  induction columns with
  | nil => rfl
  | cons c columns ih =>
    by_cases h : c.name = name
    · simp [Schema.typeOf, schema, column, h]
    · have hbeq : (name == c.name) = false := by
        simpa using fun e => h e.symm
      simpa [Schema.typeOf, schema, column, List.lookup_cons, h, hbeq] using ih

theorem Table.typeOf_of_column {t : Table} {name : String} {c : Column}
    (hc : t.column name = .ok c) : t.schema.typeOf name = .ok c.type := by
  rw [typeOf_schema, hc]
  rfl

section

variable (functions : Functions) (scope : Scope) (t : Table) (inAggregate : Bool)

/-- An expression denotes columns on neither engine, or it has the same values on both. -/
def Expr.Agrees (e : Expr) (type : ColumnType) : Prop :=
  (∃ fault, Bound.ofExpr t.names functions scope inAggregate e = .error fault ∧
    Formula.ofExpr t.names functions scope inAggregate e = .error fault) ∨
  ∃ x f g, Bound.ofExpr t.names functions scope inAggregate e = .ok x ∧
    Formula.ofExpr t.names functions scope inAggregate e = .ok f ∧
    x.Gives t g ∧ f.Gives t type g

theorem Expr.agrees_iff {e : Expr} {type : ColumnType} :
    e.Agrees functions scope t inAggregate type ↔
      GoAlike (fun x f => ∃ g, x.Gives t g ∧ f.Gives t type g)
        (Bound.ofExpr t.names functions scope inAggregate e)
        (Formula.ofExpr t.names functions scope inAggregate e) := by
  simp only [Agrees, GoAlike, exists_and_left]

/-- Several expressions that agree, taken together. -/
theorem Expr.agrees_all {items : List Expr} {type : ColumnType}
    (h : ∀ e ∈ items, e.Agrees functions scope t inAggregate type) :
    GoAlike (fun xs fs => ∃ gs,
        List.Forall₂ (fun x g => x.Gives t g ∧ ∀ row, (g row).fits type = true) xs gs ∧
        List.Forall₂ (fun f g => f.Gives t type g) fs gs ∧ fs.length = items.length)
      (Bound.ofExprs t.names functions scope inAggregate items)
      (Formula.ofExprs t.names functions scope inAggregate items) := by
  induction items with
  | nil => exact .ok ⟨[], .nil, .nil, rfl⟩
  | cons e items ih =>
    obtain ⟨he, hitems⟩ := List.forall_mem_cons.1 h
    rw [Bound.ofExprs, Formula.ofExprs]
    refine ((agrees_iff ..).1 he).bind fun x f hxf => (ih hitems).bind fun xs fs hall => .ok ?_
    obtain ⟨g, hbound, hformula⟩ := hxf
    obtain ⟨gs, hbounds, hformulas, hlength⟩ := hall
    exact ⟨g :: gs, .cons ⟨hbound, hformula.fits⟩ hbounds, .cons hformula hformulas,
      congrArg (· + 1) hlength⟩

end

theorem Bound.reads_of_gives {t : Table} {P : Bound → (Nat → Scalar) → Prop}
    {xs : List Bound} {gs : List (Nat → Scalar)}
    (h : List.Forall₂ (fun x g => x.Gives t g ∧ P x g) xs gs) :
    ∀ name ∈ readsOfAll xs, name ∈ t.names := by
  induction h with
  | nil => simp [readsOfAll]
  | cons hx _ ih =>
    intro name hname
    rcases List.mem_append.1 hname with hname | hname
    · exact hx.1.reads name hname
    · exact ih name hname

/-- Typed expressions agree. -/
theorem Expr.HasType.agrees {t : Table} (ht : t.IsBasic) {e : Expr} {type : ColumnType}
    (h : e.HasType t.schema type) (functions : Functions) (scope : Scope) (inAggregate : Bool) :
    e.Agrees functions scope t inAggregate type := by
  induction h with
  | @literal x type hx hne =>
    exact .inr ⟨.const x, .const x, fun _ => x, by rw [Bound.ofExpr], by rw [Formula.ofExpr],
      .const x, .const hx hne⟩
  | @column name type h =>
    unfold Agrees
    rw [Bound.ofExpr, Formula.ofExpr, Name.resolve]
    rw [Table.map_fst_schema] at h
    cases hresolve : Name.resolve? name t.names with
    | none => exact .inl ⟨_, rfl, rfl⟩
    | some c =>
      obtain ⟨column, hcolumn⟩ := Table.exists_column_of_mem (Name.mem_of_resolve? hresolve)
      have htype := Table.typeOf_of_column hcolumn
      obtain rfl : column.type = type := by
        have := h c hresolve
        rw [htype] at this
        cases this
        rfl
      exact .inr ⟨.column c, .column c, column.value, rfl, rfl, .column hcolumn,
        .column ht hcolumn htype⟩
  | not _ ih =>
    rw [agrees_iff, Bound.ofExpr, Formula.ofExpr]
    refine ((agrees_iff ..).1 ih).bind fun x f hxf => .ok ?_
    obtain ⟨g, hbound, hformula⟩ := hxf
    exact ⟨_, hbound.not, hformula.not⟩
  | binary hop _ _ ihl ihr =>
    rw [agrees_iff, Bound.ofExpr, Formula.ofExpr]
    refine ((agrees_iff ..).1 ihl).bind fun x f hxf =>
      ((agrees_iff ..).1 ihr).bind fun y f' hyf => .ok ?_
    obtain ⟨g, hbound, hformula⟩ := hxf
    obtain ⟨g', hbound', hformula'⟩ := hyf
    exact ⟨_, hbound.binary hop hbound' hformula.fits hformula'.fits,
      hformula.binary hop hformula'⟩
  | isNull _ negated ih =>
    rw [agrees_iff, Bound.ofExpr, Formula.ofExpr]
    refine ((agrees_iff ..).1 ih).bind fun x f hxf => .ok ?_
    obtain ⟨g, hbound, hformula⟩ := hxf
    exact ⟨_, hbound.isNull negated, hformula.isNull negated⟩
  | inList _ hne _ negated ih ihitems =>
    rw [agrees_iff, Bound.ofExpr, Formula.ofExpr]
    refine ((agrees_iff ..).1 ih).bind fun x f hxf =>
      (agrees_all functions scope t inAggregate ihitems).bind fun xs fs hall => .ok ?_
    obtain ⟨g, hbound, hformula⟩ := hxf
    obtain ⟨gs, hbounds, hformulas, hlength⟩ := hall
    have hne' : fs ≠ [] := by
      rintro rfl
      exact hne (List.length_eq_zero_iff.1 hlength.symm)
    have hhits := hformula.anyEqual hformulas hne'
    refine ⟨_, hbound.inList hformula.fits hbounds (Bound.reads_of_gives hbounds) negated, ?_⟩
    cases negated with
    | false => exact hhits
    | true => exact hhits.not

end TableQuery
