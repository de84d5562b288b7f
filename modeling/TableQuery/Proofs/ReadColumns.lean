import TableQuery.Proofs.Tables
import TableQuery.Proofs.ValueFaults

/-!
# The columns that an expression reads

An expression is evaluated on the columns that it refers to, and it asks for no others. So its
values are the same over two tables that agree on these columns, and the same if more columns are at
hand; and it never misses one.
-/

namespace TableQuery

theorem Bound.mem_firsts {names : List String} {name : String} :
    name ∈ firsts names ↔ name ∈ names := by
  suffices go : ∀ seen : List String, name ∈ names.foldl
      (fun seen name => if seen.contains name then seen else name :: seen) seen ↔
        name ∈ seen ∨ name ∈ names by
    rw [firsts, List.mem_reverse, go, or_iff_right List.not_mem_nil]
  induction names with
  | nil => simp
  | cons n names ih =>
    intro seen
    rw [List.foldl_cons, ih]
    by_cases hn : n ∈ seen
    · have hmem : name = n → name ∈ seen := fun h => h ▸ hn
      simp only [List.contains_iff_mem, hn, if_true, List.mem_cons]
      tauto
    · simp only [List.contains_iff_mem, hn, if_false, List.mem_cons]
      tauto

/-- The columns that are loaded are those of a table. -/
def Loaded.Holds (d : Loaded) (t : Table) (names : List String) : Prop :=
  ∀ name ∈ names, ∃ c, t.column name = .ok c ∧ d.values name = .ok c.scalars.toArray

theorem Bound.holds_mono {d : Loaded} {t : Table} {names names' : List String}
    (h : d.Holds t names) (hsub : ∀ name ∈ names', name ∈ names) : d.Holds t names' :=
  fun name hname => h name (hsub name hname)

/-- Whether a fault says that a column is not at hand. -/
@[simp]
def Fault.isNotLoaded : Fault → Bool
  | .execution (.notLoaded _) => true
  | _ => false

/-- Two tables of one height that have the same values under certain names, or have no such column.
-/
def Table.AgreesOn (names : List String) (t u : Table) : Prop :=
  t.height = u.height ∧
    ∀ name ∈ names, (t.column name).map Column.scalars = (u.column name).map Column.scalars

theorem Table.AgreesOn.refl (names : List String) (t : Table) : t.AgreesOn names t :=
  ⟨rfl, fun _ _ => rfl⟩

namespace Loaded

variable {t u : Table} {names : List String} {d d' : Loaded}

/-- Columns that a table has can be loaded. -/
theorem exists_ofTable (t : Table) (names : List String) (h : ∀ name ∈ names, name ∈ t.names) :
    ∃ d, ofTable t names = .ok d ∧ d.height = t.height ∧ d.Holds t names := by
  obtain ⟨columnOf, hcolumn⟩ := Table.exists_columns h
  have hcolumns : (names.mapM fun name => do
      return (name, (← t.column name).scalars.toArray) : Except Fault _) =
        .ok (names.map fun name => (name, (columnOf name).scalars.toArray)) := by
    refine mapM_eq_ok_map fun name hname => ?_
    rw [hcolumn name hname]
    rfl
  refine ⟨⟨names.map fun name => (name, (columnOf name).scalars.toArray), t.height⟩, ?_, rfl,
    fun name hname => ⟨columnOf name, hcolumn name hname, ?_⟩⟩
  · rw [ofTable, hcolumns]
    rfl
  · rw [Loaded.values, lookup_map_pair (fun name => (columnOf name).scalars.toArray) hname]

/-- Only columns that a table has can be loaded. -/
theorem mem_names_of_ofTable (h : ofTable t names = .ok d) : ∀ name ∈ names, name ∈ t.names := by
  intro name hname
  obtain ⟨columns, hcolumns, -⟩ := bind_eq_ok.1 h
  obtain ⟨_, -, hc⟩ := exists_of_mem_left (mapM_eq_ok.1 hcolumns) hname
  obtain ⟨c, hc, -⟩ := bind_eq_ok.1 hc
  exact Table.mem_names_of_column hc

/-- What is loaded from a table are its columns. -/
theorem ofTable_eq_ok (h : ofTable t names = .ok d) : d.height = t.height ∧ d.Holds t names := by
  obtain ⟨d', hd', hheight, hholds⟩ := exists_ofTable t names (mem_names_of_ofTable h)
  cases h.symm.trans hd'
  exact ⟨hheight, hholds⟩

/-- From tables that agree on the columns the same is loaded. -/
theorem ofTable_congr (h : t.AgreesOn names u) : ofTable t names = ofTable u names := by
  have hcolumn : ∀ name ∈ names,
      (do return (name, (← t.column name).scalars.toArray) : Except Fault _) =
        (do return (name, (← u.column name).scalars.toArray) : Except Fault _) := by
    intro name hname
    have hsame := h.2 name hname
    cases ht : t.column name <;> cases hu : u.column name <;> simp_all
  rw [ofTable, ofTable, mapM_congr hcolumn, h.1]

/-- Two loads of one table have the same columns, as far as they go. -/
theorem Holds.values_eq {names' : List String} (h : d.Holds t names) (h' : d'.Holds t names')
    {name : String} (hname : name ∈ names) (hname' : name ∈ names') :
    d.values name = d'.values name := by
  obtain ⟨c, hc, hvalues⟩ := h name hname
  obtain ⟨c', hc', hvalues'⟩ := h' name hname'
  cases hc.symm.trans hc'
  exact hvalues.trans hvalues'.symm

end Loaded

theorem Rows.column_congr {d d' : Loaded} {name : String} (h : d.values name = d'.values name)
    (r : Rows) : r.column d name = r.column d' name := by
  simp only [column, h]

namespace Bound

/-! ## Evaluation -/

section

variable {d d' : Loaded} {r r' : Rows}

mutual

/-- Two evaluations for as many rows that find the same in the columns that an expression reads give
the same. -/
theorem eval_congr (hcount : r.count = r'.count) (x : Bound)
    (h : ∀ name ∈ x.reads, r.column d name = r'.column d' name) : x.eval d r = x.eval d' r' := by
  cases x with
  | const v => rfl
  | column name => exact h name List.mem_cons_self
  | rowCount => rw [eval, eval, hcount]
  | call name f args => rw [eval, eval, evalAll_congr hcount args h]
  | aggregate a x => rw [eval, eval, eval_congr hcount x h, hcount]
  | neg x | not x | isNull x negated => rw [eval, eval, eval_congr hcount x h]
  | binary op x y =>
    have hx := eval_congr hcount x fun name hname => h name (List.mem_append_left _ hname)
    have hy := eval_congr hcount y fun name hname => h name (List.mem_append_right _ hname)
    rw [eval, eval, hx, hy]
  | inList x items negated =>
    have hx := eval_congr hcount x fun name hname => h name (List.mem_append_left _ hname)
    have hitems := fun target before => evalItems_congr hcount target before items
      fun name hname => h name (List.mem_append_right _ hname)
    simp only [eval, hx, hitems]

theorem evalAll_congr (hcount : r.count = r'.count) (xs : List Bound)
    (h : ∀ name ∈ readsOfAll xs, r.column d name = r'.column d' name) :
    evalAll d r xs = evalAll d' r' xs := by
  cases xs with
  | nil => rfl
  | cons x xs =>
    have hx := eval_congr hcount x fun name hname => h name (List.mem_append_left _ hname)
    have hxs := evalAll_congr hcount xs fun name hname => h name (List.mem_append_right _ hname)
    rw [evalAll, evalAll, hx, hxs]

theorem evalItems_congr (hcount : r.count = r'.count) (target before : Datum Scalar)
    (xs : List Bound) (h : ∀ name ∈ readsOfAll xs, r.column d name = r'.column d' name) :
    evalItems d r target before xs = evalItems d' r' target before xs := by
  cases xs with
  | nil => rfl
  | cons x xs =>
    have hx := eval_congr hcount x fun name hname => h name (List.mem_append_left _ hname)
    have hxs := fun now => evalItems_congr hcount target now xs
      fun name hname => h name (List.mem_append_right _ hname)
    simp only [evalItems, hx, hxs]

end

variable {x : Bound} (h : ∀ name ∈ x.reads, d.values name = d'.values name)

include h

theorem evalRows_congr (hheight : d.height = d'.height) : x.evalRows d = x.evalRows d' := by
  have heval (row : Nat) : x.eval d (.single row) = x.eval d' (.single row) :=
    eval_congr rfl x fun name hname => Rows.column_congr (h name hname) _
  simp only [evalRows, heval, hheight]

theorem evalGroups_congr (groups : List (List Nat)) :
    x.evalGroups d groups = x.evalGroups d' groups := by
  have heval (rows : List Nat) : x.eval d (.group rows) = x.eval d' (.group rows) :=
    eval_congr rfl x fun name hname => Rows.column_congr (h name hname) _
  simp only [evalGroups, heval]

end

/-! ## Tables -/

/-- The values of a bound expression in every row of a table. -/
def rowsOver (x : Bound) (t : Table) : Except Fault (List Scalar) := do
  x.evalRows (← Loaded.ofTable t x.referenced)

/-- The values of a bound expression for groups of rows of a table. -/
def groupsOver (x : Bound) (groups : List (List Nat)) (t : Table) : Except Fault (List Scalar) := do
  x.evalGroups (← Loaded.ofTable t x.referenced) groups

section

variable {e : Expr} {columns names : List String} {scope : Scope} {x : Bound} {t u : Table}
  {d : Loaded}

/-- Over a table, an expression never misses a column, whichever rows it is evaluated for. -/
theorem freeOf_notLoaded {α : Type} (hx : bind e columns .builtin scope = .ok x) (r : α → Rows)
    (places : Loaded → List α) :
    FreeOf Fault.isNotLoaded (do
      let d ← Loaded.ofTable t x.referenced
      (places d).mapM fun a => do (← x.eval d (r a)).single) := by
  have hspares : SparesValues Fault.isNotLoaded := by
    intro f hf
    unfold Fault.isOfValues at hf
    split at hf <;> simp_all
  have hcalls := of_mem_calls_of_builtin
    (fun _ => ScalarFunction.isFreeOf_of_builtin hspares) hx
  refine (Loaded.freeOf_ofTable (fun _ => rfl) t _).bind_of_ok fun d hd =>
    .mapM (fun a => .bind ?_ (Datum.freeOf_single rfl)) _
  obtain ⟨-, hholds⟩ := Loaded.ofTable_eq_ok hd
  refine freeOf_eval d (r a) hspares x (fun name hname => ?_) hcalls
  obtain ⟨c, -, hvalues⟩ := hholds name (mem_firsts.2 hname)
  rw [hvalues]
  exact .ok _

/-- What is at hand beyond the columns that an expression reads does not matter. -/
theorem eval_of_wider (h : t.AgreesOn x.referenced u) (hnames : ∀ name ∈ x.referenced, name ∈ names)
    (hd : Loaded.ofTable u names = .ok d) :
    x.evalRows d = x.rowsOver t ∧ ∀ groups, x.evalGroups d groups = x.groupsOver groups t := by
  obtain ⟨hheight, hholds⟩ := Loaded.ofTable_eq_ok hd
  obtain ⟨d', hd', hheight', hholds'⟩ := Loaded.exists_ofTable u x.referenced
    fun name hname => Loaded.mem_names_of_ofTable hd name (hnames name hname)
  have hvalues : ∀ name ∈ x.reads, d.values name = d'.values name := fun name hname =>
    have hmem := mem_firsts.2 hname
    hholds.values_eq hholds' (hnames name hmem) hmem
  constructor
  · rw [rowsOver, Loaded.ofTable_congr h, hd', ok_bind,
      evalRows_congr hvalues (hheight.trans hheight'.symm)]
  · intro groups
    rw [groupsOver, Loaded.ofTable_congr h, hd', ok_bind, evalGroups_congr hvalues]

/-- The values of an expression depend on the columns that it refers to and on nothing else. Over
tables that agree on these they are the same for the rows and for any groups of rows, and so are the
faults; further columns at hand change nothing; and no column is ever missed. -/
theorem reads_only_referenced (hx : bind e columns .builtin scope = .ok x)
    (h : t.AgreesOn x.referenced u) :
    (x.rowsOver t = x.rowsOver u ∧ ∀ groups, x.groupsOver groups t = x.groupsOver groups u) ∧
    (∀ names d, (∀ name ∈ x.referenced, name ∈ names) → Loaded.ofTable u names = .ok d →
      x.evalRows d = x.rowsOver t ∧ ∀ groups, x.evalGroups d groups = x.groupsOver groups t) ∧
    ∀ name, x.rowsOver t ≠ .error (.execution (.notLoaded name)) ∧
      ∀ groups, x.groupsOver groups t ≠ .error (.execution (.notLoaded name)) := by
  refine ⟨⟨?_, fun groups => ?_⟩, fun names d => eval_of_wider h, fun name => ⟨?_, fun groups => ?_⟩⟩
  · rw [rowsOver, rowsOver, Loaded.ofTable_congr h]
  · rw [groupsOver, groupsOver, Loaded.ofTable_congr h]
  · intro hmissing
    have := freeOf_notLoaded (t := t) hx .single (fun d => List.range d.height) _ hmissing
    cases this
  · intro hmissing
    have := freeOf_notLoaded (t := t) hx .group (fun _ => groups) _ hmissing
    cases this

/-- Two shipments, the second of them without a price. -/
def shipments : Table :=
  ⟨[⟨"port", .str, [.str "kiel", .str "bari"]⟩, ⟨"price", .int64, [.int 7, .null]⟩,
    ⟨"note", .str, [.str "fragile", .null]⟩]⟩

/-- The same shipments in columns of another order, with other notes. -/
def renoted : Table :=
  ⟨[⟨"note", .int64, [.int 1, .int 2]⟩, ⟨"price", .int64, [.int 7, .null]⟩,
    ⟨"port", .str, [.str "kiel", .str "bari"]⟩]⟩

/-- `IF(COUNT(*) > 1 AND NOT FIRST(port) IS NULL, -SUM(price), COALESCE(MAX(price), 0)) IN (0, -7)`.
-/
def isKnownCharge : Expr :=
  .inList (.call "IF" [.binary .and (.binary .gt .countStar (.literal (.int 1)))
      (.not (.isNull (.call "FIRST" [.column "port"]) false)),
      .neg (.call "SUM" [.column "price"]),
      .call "COALESCE" [.call "MAX" [.column "price"], .literal (.int 0)]])
    [.literal (.int 0), .literal (.int (-7))] false

theorem reads_only_referenced_shipments :
    ∃ x, bind isKnownCharge shipments.names .builtin .group = .ok x ∧
      (∃ values, x.groupsOver [[0, 1], [1]] shipments = .ok values) ∧
      x.groupsOver [[0, 1], [1]] shipments = x.groupsOver [[0, 1], [1]] renoted ∧
      (∀ d, Loaded.ofTable renoted renoted.names = .ok d →
        x.evalGroups d [[0, 1], [1]] = x.groupsOver [[0, 1], [1]] shipments) ∧
      ∀ name, x.groupsOver [[0, 5]] shipments ≠ .error (.execution (.notLoaded name)) := by
  obtain ⟨x, hx⟩ := exists_eq_ok (x := bind isKnownCharge shipments.names .builtin .group)
    (by decide +kernel)
  have hreferenced : x.referenced = ["port", "price"] := by
    cases hx
    decide +kernel
  have hagrees : shipments.AgreesOn x.referenced renoted := by
    rw [hreferenced]
    refine ⟨rfl, fun name hname => ?_⟩
    rcases List.mem_cons.1 hname with rfl | hname
    · rfl
    · rw [List.mem_singleton.1 hname]
      rfl
  obtain ⟨⟨-, hgroups⟩, hwider, hmissing⟩ := reads_only_referenced hx hagrees
  refine ⟨x, hx, exists_eq_ok ?_, hgroups _, fun d hd => (hwider _ d ?_ hd).2 _,
    fun name => (hmissing name).2 _⟩
  · cases hx
    decide +kernel
  · rw [hreferenced]
    decide +kernel

end

end Bound

end TableQuery
