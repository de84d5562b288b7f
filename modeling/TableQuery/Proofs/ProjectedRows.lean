import TableQuery.Function.Builtin
import TableQuery.Proofs.Engines.Conditions
import TableQuery.Proofs.GroupedRows
import TableQuery.Proofs.Orderly.Basic
import TableQuery.Session.Pipeline

/-!
# The rows of a projection

The eager engine computes a selected item for every row, so a projection has the rows of its table.
The deferred engine has one value for all rows where a formula reads no column, and a table made of
such values alone has one row. Which items read a column shows in their expressions.
-/

namespace TableQuery

/-- A test holds somewhere in both of two lists if it goes alike along them. -/
theorem any_eq_of_forall₂ {α β : Type} {p : α → Bool} {q : β → Bool} {xs : List α} {ys : List β}
    (h : List.Forall₂ (fun x y => p x = q y) xs ys) : xs.any p = ys.any q := by
  induction h with
  | nil => rfl
  | cons hxy _ ih => rw [List.any_cons, List.any_cons, hxy, ih]

/-! ## What formulas make of values -/

namespace Formula

/-- Whether a formula has a cell for each row, if rows are not grouped: it reads a column. -/
def spreads : Formula → Bool
  | .const _ => false
  | .column _ => true
  | .rowCount => false
  | .binary _ l r => spreads l || spreads r
  | .not f => spreads f
  | .isNull f _ => spreads f
  | .present f => spreads f
  | .truth f => spreads f
  | .choose c y n => spreads c || (spreads y || spreads n)
  | .aggregate _ _ => false
  | .repeated _ => true
  | .size f => spreads f

end Formula

/-- A property of values, given whether they have a cell for each row, that operators carry over
from their operands to their results. -/
structure Spread.IsCarried (P : ∀ {α : Type}, Bool → Spread α → Prop) : Prop where
  map : ∀ {α β : Type} {p : Bool} {a : Spread α}, P p a → ∀ f : α → β, P p (a.map f)
  pair : ∀ {α β : Type} {p q : Bool} {a : Spread α} {b : Spread β} {c : Spread (α × β)},
    P p a → P q b → a.pair b = .ok c → P (p || q) c

section

variable {P : ∀ {α : Type}, Bool → Spread α → Prop} {p q r : Bool}

namespace Values

theorem carried_bring (hP : Spread.IsCarried @P) {v : Values} (h : P p v.cells)
    (promised wanted : ColumnType) : P p (v.bring promised wanted).cells := by
  unfold bring
  split
  · exact h
  · exact hP.map h _

theorem carried_binary (hP : Spread.IsCarried @P) {op : BinaryOp} {known : Bool} {a b v : Values}
    (ha : P p a.cells) (hb : P q b.cells) (h : binary op known a b = .ok v) :
    P (p || q) v.cells := by
  obtain ⟨⟨meeting, result⟩, -, h⟩ := bind_eq_ok.1 h
  obtain ⟨pairs, hpairs, h⟩ := bind_eq_ok.1 h
  cases h
  exact hP.map (hP.pair (hP.map ha _) (hP.map hb _) hpairs) _

theorem carried_choose (hP : Spread.IsCarried @P) {c yes no v : Values} (hc : P p c.cells)
    (hyes : P q yes.cells) (hno : P r no.cells) (h : choose c yes no = .ok v) :
    P (p || (q || r)) v.cells := by
  obtain ⟨t, -, h⟩ := bind_eq_ok.1 h
  obtain ⟨branches, hbranches, h⟩ := bind_eq_ok.1 h
  obtain ⟨cases, hcases, h⟩ := bind_eq_ok.1 h
  cases h
  exact hP.map (hP.pair hc (hP.pair (hP.map hyes _) (hP.map hno _) hbranches) hcases) _

end Values

/-- What operators carry over holds of the values of all formulas, if it holds of constants and
columns, of the number of rows, and of what aggregates and repetitions make of such values. -/
theorem Formula.eval_carried (hP : Spread.IsCarried @P) {s : Schema} {t : Table}
    {groups : Option (List (List Nat))} (hconst : ∀ {α : Type} (x : α), P false (.constant x))
    (hcolumn : ∀ c ∈ t.columns, P true (.perRow c.cells))
    (hcount : P false (Values.counts t.height groups).cells)
    (haggregate : ∀ {a : Aggregate} {v w : Values} {p : Bool}, P p v.cells →
      v.aggregate a groups = .ok w → P false w.cells)
    (hrepeated : ∀ {v : Values} {p : Bool}, P p v.cells → P true (.perRow (v.cells.toList t.height)))
    {f : Formula} {v : Values} (h : f.eval s t groups = .ok v) : P f.spreads v.cells := by
  induction f generalizing v with
  | const x =>
    cases h
    exact hconst _
  | column name =>
    obtain ⟨c, hc, h⟩ := bind_eq_ok.1 h
    cases h
    exact hcolumn c (Table.mem_of_column hc).1
  | rowCount =>
    cases h
    exact hcount
  | binary op l r ihl ihr =>
    obtain ⟨a, -, h⟩ := bind_eq_ok.1 h
    obtain ⟨b, -, h⟩ := bind_eq_ok.1 h
    obtain ⟨⟨meeting, _⟩, -, h⟩ := bind_eq_ok.1 h
    obtain ⟨x, hx, h⟩ := bind_eq_ok.1 h
    obtain ⟨y, hy, h⟩ := bind_eq_ok.1 h
    exact Values.carried_binary hP (Values.carried_bring hP (ihl hx) _ _)
      (Values.carried_bring hP (ihr hy) _ _) h
  | not f ih | size f ih =>
    obtain ⟨w, hw, h⟩ := bind_eq_ok.1 h
    obtain ⟨type, -, h⟩ := bind_eq_ok.1 h
    cases h
    exact hP.map (ih hw) _
  | isNull f _ ih | present f ih | truth f ih =>
    obtain ⟨w, hw, h⟩ := bind_eq_ok.1 h
    cases h
    exact hP.map (ih hw) _
  | choose c y n ihc ihy ihn =>
    obtain ⟨a, -, h⟩ := bind_eq_ok.1 h
    obtain ⟨b, -, h⟩ := bind_eq_ok.1 h
    obtain ⟨meeting, -, h⟩ := bind_eq_ok.1 h
    obtain ⟨yes, hyes, h⟩ := bind_eq_ok.1 h
    obtain ⟨no, hno, h⟩ := bind_eq_ok.1 h
    obtain ⟨condition, hcondition, h⟩ := bind_eq_ok.1 h
    exact Values.carried_choose hP (ihc hcondition) (Values.carried_bring hP (ihy hyes) _ _)
      (Values.carried_bring hP (ihn hno) _ _) h
  | aggregate a f ih =>
    obtain ⟨w, hw, h⟩ := bind_eq_ok.1 h
    split at h
    · cases h
      exact hcount
    · exact haggregate (ih hw) h
  | repeated f ih =>
    obtain ⟨w, hw, h⟩ := bind_eq_ok.1 h
    cases h
    exact hrepeated (ih hw)

end

/-! ## Values that have a part for every row -/

/-- A value over `n` rows that has a part for each of them, or else is the same for all. -/
structure Spread.Spans {α : Type} (n : Nat) (spreads : Bool) (a : Spread α) : Prop where
  isOver : a.IsOver n
  isConstant : a.isConstant = !spreads

namespace Spread

variable {α β : Type} {n : Nat} {p q : Bool}

theorem Spans.map {a : Spread α} (ha : a.Spans n p) (f : α → β) : (a.map f).Spans n p := by
  refine ⟨ha.isOver.map f, ?_⟩
  rw [← ha.isConstant]
  cases a <;> rfl

theorem isConstant_pair {a : Spread α} {b : Spread β} {c : Spread (α × β)}
    (h : a.pair b = .ok c) : c.isConstant = (a.isConstant && b.isConstant) := by
  cases a <;> cases b <;> cases h <;> rfl

/-- Of two values side by side it is enough that one has a part for each row. -/
theorem Spans.pair {a : Spread α} {b : Spread β} {c : Spread (α × β)} (ha : a.Spans n p)
    (hb : b.Spans n q) (h : a.pair b = .ok c) : c.Spans n (p || q) := by
  obtain ⟨c', hc', hover, -⟩ := ha.isOver.pair hb.isOver
  obtain rfl : c' = c := Except.ok.inj (hc'.symm.trans h)
  exact ⟨hover, by rw [isConstant_pair h, ha.isConstant, hb.isConstant, Bool.not_or]⟩

theorem isCarried_spans (n : Nat) : IsCarried fun p a => a.Spans n p :=
  ⟨Spans.map, Spans.pair⟩

theorem Spans.length_toList {a : Spread α} (ha : a.Spans n p) (m : Nat) :
    (a.toList m).length = if p then n else m := by
  obtain ⟨hover, hconstant⟩ := ha
  cases a with
  | constant x =>
    obtain rfl : p = false := Bool.not_eq_eq_eq_not.1 hconstant.symm
    exact List.length_replicate
  | perRow xs =>
    obtain rfl : p = true := Bool.not_eq_eq_eq_not.1 hconstant.symm
    exact hover
  | perGroup xs => cases hover

end Spread

/-- Without groups an aggregate is one value for the whole column. -/
theorem Values.spans_aggregate {a : Aggregate} {v w : Values} (h : v.aggregate a none = .ok w)
    (n : Nat) : w.cells.Spans n false := by
  obtain ⟨result, -, h⟩ := bind_eq_ok.1 h
  dsimp only at h
  split at h
  · cases h
  · cases h
    exact ⟨trivial, rfl⟩

/-- Over a table whose columns are equally long a formula has a cell for each row, or else one for
all of them. -/
theorem Formula.spans_eval {s : Schema} {t : Table} (ht : t.IsRectangular) {f : Formula} {v : Values}
    (h : f.eval s t none = .ok v) : v.cells.Spans t.height f.spreads := by
  refine eval_carried (Spread.isCarried_spans t.height) (fun _ => ⟨trivial, rfl⟩)
    (fun c hc => ⟨ht c hc, rfl⟩) ?_ (fun _ h => Values.spans_aggregate h _) (fun hv => ⟨?_, rfl⟩) h
  · exact ⟨trivial, rfl⟩
  · exact (hv.length_toList t.height).trans (ite_self _)

/-! ## Projections of either engine -/

namespace Table

/-- At least one column, and as many cells in each, make so many rows. -/
theorem isRectangular_of_length {t : Table} {n : Nat} (hne : t.columns ≠ [])
    (h : ∀ c ∈ t.columns, c.cells.length = n) : t.IsRectangular ∧ t.height = n := by
  have hheight : t.height = n := height_eq_of_cells h fun hnil => absurd hnil hne
  exact ⟨fun c hc => (h c hc).trans hheight.symm, hheight⟩

/-- Values are all the same for all rows if no formula has a cell for each. -/
theorem all_isConstant {n : Nat} {outputs : List Output} {values : List (String × Values)}
    (h : List.Forall₂ (fun o v => v.2.cells.Spans n o.2.spreads) outputs values) :
    (values.all fun v => v.2.cells.isConstant) = !outputs.any fun o => o.2.spreads := by
  rw [List.all_eq_not_any_not]
  refine congrArg _ (any_eq_of_forall₂ (h.flip.imp fun v o hv => ?_))
  rw [hv.isConstant, Bool.not_not]

/-- The formulas of a projection make one row if none of them has a cell for each row. -/
theorem height_project {s : Schema} {t out : Table} (ht : t.IsRectangular)
    {outputs : List Output} (hne : outputs ≠ []) (h : t.project s outputs = .ok out) :
    out.IsRectangular ∧
      out.height = if outputs.any fun o => o.2.spreads then t.height else 1 := by
  obtain ⟨_, -, h⟩ := bind_eq_ok.1 h
  obtain ⟨values, hvalues, h⟩ := bind_eq_ok.1 h
  cases h
  have hspans : List.Forall₂ (fun (o : Output) (v : String × Values) =>
      v.2.cells.Spans t.height o.2.spreads) outputs values := by
    refine (mapM_eq_ok.1 hvalues).imp fun o v hv => ?_
    obtain ⟨w, hw, hv⟩ := bind_eq_ok.1 hv
    cases hv
    exact Formula.spans_eval ht hw
  refine isRectangular_of_length ?_ fun c hc => ?_
  · intro hnil
    cases List.map_eq_nil_iff.1 hnil
    exact hne (List.forall₂_nil_right_iff.1 hspans)
  · obtain ⟨v, hv, rfl⟩ := List.mem_map.1 hc
    obtain ⟨o, ho, hov⟩ := exists_of_mem_right hspans hv
    refine (hov.length_toList _).trans ?_
    change (if o.2.spreads = true then t.height
      else if values.all (fun v => v.2.cells.isConstant) = true then 1 else t.height) = _
    rw [all_isConstant hspans]
    by_cases hspreads : o.2.spreads = true
    · rw [if_pos hspreads, if_pos (List.any_eq_true.2 ⟨o, ho, hspreads⟩)]
    · rw [if_neg hspreads]
      cases outputs.any fun o => o.2.spreads <;> rfl

end Table

namespace Eager

variable {fs : Functions} {t : Table}

theorem length_rowValues {e : Expr} {xs : List Scalar} (h : rowValues fs e t = .ok xs) :
    xs.length = t.height := by
  obtain ⟨x, -, h⟩ := bind_eq_ok.1 h
  obtain ⟨d, hd, h⟩ := bind_eq_ok.1 h
  obtain ⟨columns, -, hd⟩ := bind_eq_ok.1 hd
  cases hd
  rw [← (mapM_eq_ok.1 h).length_eq, List.length_range]

theorem length_cells_computed {label : String} {e : Expr} {c : Column}
    (h : computed fs label e t = .ok c) : c.cells.length = t.height := by
  obtain ⟨xs, hxs, h⟩ := bind_eq_ok.1 h
  cases h
  rw [length_cells_conform, Column.length_cells_ofScalars, length_rowValues hxs]

/-- Computed row by row, every item has a cell in every row. -/
theorem height_project {out : Table} (ht : t.IsRectangular) {items : List Selected}
    (hne : items ≠ []) (h : project fs items t = .ok out) :
    out.IsRectangular ∧ out.height = t.height := by
  obtain ⟨_, -, h⟩ := bind_eq_ok.1 h
  obtain ⟨columns, hcolumns, h⟩ := bind_eq_ok.1 h
  cases h
  have hcolumns := mapM_eq_ok.1 hcolumns
  refine Table.isRectangular_of_length ?_ fun c hc => ?_
  · intro hnil
    cases hnil
    exact hne (List.forall₂_nil_right_iff.1 hcolumns)
  · obtain ⟨i, -, hi⟩ := exists_of_mem_right hcolumns hc
    cases i with
    | column source label =>
      obtain ⟨d, hd, hi⟩ := bind_eq_ok.1 hi
      cases hi
      exact ht d (Table.mem_of_column hd).1
    | computed e label => exact length_cells_computed hi

end Eager

namespace Item

/-- Whether the formula of an item over the given columns has a cell for each row. -/
def spreads (fs : Functions) (columns : List String) (i : Item) : Bool :=
  match Formula.lower i.expr columns fs .row with
  | .ok f => f.spreads
  | .error _ => false

end Item

/-- An item selects a column by its name, or else is computed. -/
theorem Setting.selected_cases (columns : List String) (i : Item) :
    (∃ name source, i.expr = .column name ∧ Name.resolve? name columns = some source ∧
      selected columns i = .column source i.label) ∨
    selected columns i = .computed i.expr i.label := by
  cases hfound : i.expr.asColumn?.bind fun name => Name.resolve? name columns with
  | none => exact .inr (by rw [selected, hfound])
  | some source =>
    obtain ⟨name, hname, hsource⟩ := Option.bind_eq_some_iff.1 hfound
    obtain ⟨e, text, label⟩ := i
    cases e <;> cases hname
    exact .inl ⟨name, source, rfl, hsource, by rw [selected, hfound]⟩

namespace Deferred

/-- Every selected item is put off as the formula of its expression. -/
theorem lower_of_project {fs : Functions} {items : List Item} {p plan : Plan} {s : Schema}
    (hs : p.schema = .ok s)
    (h : project fs (items.map (Setting.selected (s.map Prod.fst))) p = .ok plan) :
    ∃ outputs, plan = .project outputs p ∧
      List.Forall₂ (fun (i : Item) (o : Output) =>
        Formula.lower i.expr (s.map Prod.fst) fs .row = .ok o.2) items outputs := by
  obtain ⟨_, -, h⟩ := bind_eq_ok.1 h
  obtain ⟨s', hs', h⟩ := bind_eq_ok.1 h
  obtain rfl : s = s' := Except.ok.inj (hs.symm.trans hs')
  obtain ⟨outputs, houtputs, h⟩ := bind_eq_ok.1 h
  cases h
  refine ⟨outputs, rfl, (List.forall₂_map_left_iff.1 (mapM_eq_ok.1 houtputs)).imp fun i o ho => ?_⟩
  rcases Setting.selected_cases (s.map Prod.fst) i with ⟨name, source, he, hsource, hi⟩ | hi
  · rw [hi] at ho
    cases ho
    rw [he, Formula.lower, Formula.ofExpr, Name.resolve, hsource]
    rfl
  · rw [hi] at ho
    obtain ⟨f, hf, ho⟩ := bind_eq_ok.1 ho
    cases ho
    exact hf

end Deferred

/-! ## Expressions that read a column -/

namespace Expr

mutual

/-- Whether an expression reads a column, other than to look it up among no items. -/
def spreads : Expr → Bool
  | .literal _ => false
  | .column _ => true
  | .call _ args => anySpreads args
  | .countStar => false
  | .neg e => spreads e
  | .not e => spreads e
  | .binary _ l r => spreads l || spreads r
  | .isNull e _ => spreads e
  | .inList e items _ => !items.isEmpty && (spreads e || anySpreads items)

def anySpreads : List Expr → Bool
  | [] => false
  | e :: es => spreads e || anySpreads es

end

end Expr

namespace Formula

theorem spreads_firstPresent (fs : List Formula) : (firstPresent fs).spreads = fs.any spreads := by
  induction fs with
  | nil => rfl
  | cons f fs ih => simp [firstPresent, spreads, ih]

theorem spreads_foldl_or (target : Formula) (items : List Formula) (hits : Formula) :
    (items.foldl (fun hits item => .binary .or hits (.binary .eq target item)) hits).spreads =
      (hits.spreads || items.any fun item => target.spreads || item.spreads) := by
  induction items generalizing hits with
  | nil => simp
  | cons item items ih => rw [List.foldl_cons, ih, List.any_cons, spreads, spreads, Bool.or_assoc]

theorem spreads_anyEqual (target : Formula) (items : List Formula) :
    (anyEqual target items).spreads =
      (!items.isEmpty && (target.spreads || items.any spreads)) := by
  cases items with
  | nil => rfl
  | cons item items =>
    rw [anyEqual, spreads_foldl_or, spreads]
    cases target.spreads <;> simp

end Formula

/-- A function whose formula reads a column just if that of an argument does. -/
def ScalarFunction.Spreads (f : ScalarFunction) : Prop :=
  ∀ fs g, f.formula fs = .ok g → g.spreads = fs.any Formula.spreads

namespace ScalarFunction

theorem spreads_coalesce (least : Nat) (most : Option Nat) : (coalesce least most).Spreads := by
  intro fs g h
  cases h
  exact Formula.spreads_firstPresent fs

theorem spreads_choice : choice.Spreads := by
  intro fs g h
  match fs with
  | [condition, yes, no] =>
    cases h
    simp [Formula.spreads]
  | [] | [_] | [_, _] | _ :: _ :: _ :: _ :: _ => cases h

theorem spreads_of_builtin {e : String × ScalarFunction} (h : e ∈ Functions.builtin) :
    e.2.Spreads :=
  Functions.of_mem_builtin spreads_coalesce spreads_choice h

end ScalarFunction

namespace Formula

section

variable {columns : List String} {functions : Functions}

mutual

/-- Outside groups the formula of an expression reads a column just if the expression does. -/
theorem spreads_ofExpr (hfunctions : ∀ e ∈ functions, e.2.Spreads) {inAggregate : Bool}
    {e : Expr} {f : Formula} (h : ofExpr columns functions .row inAggregate e = .ok f) :
    f.spreads = e.spreads := by
  cases e with
  | literal x =>
    cases h
    rfl
  | column name =>
    obtain ⟨c, -, h⟩ := bind_eq_ok.1 h
    cases h
    rfl
  | countStar =>
    obtain ⟨_, hadmit, -⟩ := bind_eq_ok.1 h
    cases hadmit
  | call name args =>
    rw [ofExpr] at h
    split at h
    · obtain ⟨_, hadmit, -⟩ := bind_eq_ok.1 h
      cases hadmit
    · obtain ⟨g, hg, h⟩ := bind_eq_ok.1 h
      obtain ⟨fs, hfs, h⟩ := bind_eq_ok.1 h
      have hformula : g.formula fs = .ok f := by
        cases hgf : g.formula fs <;> rw [hgf] at h <;> cases h
        rfl
      rw [hfunctions _ (Functions.mem_of_resolve hg) fs f hformula,
        (any_spreads_ofExprs hfunctions hfs).1]
      rfl
  | neg e | not e =>
    obtain ⟨g, hg, h⟩ := bind_eq_ok.1 h
    cases h
    change g.spreads = e.spreads
    exact spreads_ofExpr hfunctions hg
  | binary op l r =>
    obtain ⟨x, hx, h⟩ := bind_eq_ok.1 h
    obtain ⟨y, hy, h⟩ := bind_eq_ok.1 h
    cases h
    exact congrArg₂ _ (spreads_ofExpr hfunctions hx) (spreads_ofExpr hfunctions hy)
  | isNull e negated =>
    obtain ⟨g, hg, h⟩ := bind_eq_ok.1 h
    cases h
    change g.spreads = e.spreads
    exact spreads_ofExpr hfunctions hg
  | inList e items negated =>
    obtain ⟨target, htarget, h⟩ := bind_eq_ok.1 h
    obtain ⟨fs, hfs, h⟩ := bind_eq_ok.1 h
    obtain ⟨hany, hlength⟩ := any_spreads_ofExprs hfunctions hfs
    have hempty : fs.isEmpty = items.isEmpty := by
      cases fs <;> cases items <;> simp_all
    have hhits : (anyEqual target fs).spreads = (Expr.inList e items negated).spreads := by
      rw [spreads_anyEqual, spreads_ofExpr hfunctions htarget, hany, hempty, Expr.spreads]
    cases h
    cases negated <;> exact hhits

theorem any_spreads_ofExprs (hfunctions : ∀ e ∈ functions, e.2.Spreads) {inAggregate : Bool}
    {es : List Expr} {fs : List Formula}
    (h : ofExprs columns functions .row inAggregate es = .ok fs) :
    fs.any spreads = Expr.anySpreads es ∧ fs.length = es.length := by
  cases es with
  | nil =>
    cases h
    exact ⟨rfl, rfl⟩
  | cons e es =>
    obtain ⟨f, hf, h⟩ := bind_eq_ok.1 h
    obtain ⟨gs, hgs, h⟩ := bind_eq_ok.1 h
    cases h
    obtain ⟨hany, hlength⟩ := any_spreads_ofExprs hfunctions hgs
    exact ⟨congrArg₂ _ (spreads_ofExpr hfunctions hf) hany, congrArg _ hlength⟩

end

end

end Formula

/-! ## Projections of a table that is not grouped -/

namespace Setting

variable {c : Setting} {r : Relation} {items : List Item} {w : Working} {t out : Table}

theorem height_project_eager (hengine : c.engine = .eager) (hr : r.collect = .ok t)
    (ht : t.IsRectangular) (hitems : items ≠ []) (hw : c.project (.plain r) items = .ok w)
    (hout : w.table.collect = .ok out) : out.IsRectangular ∧ out.height = t.height := by
  obtain ⟨columns, -, hw⟩ := bind_eq_ok.1 hw
  obtain ⟨r', hr', hw⟩ := bind_eq_ok.1 hw
  cases hw
  rw [Engine.project, hengine] at hr'
  obtain ⟨t', ht', hr'⟩ := bind_eq_ok.1 hr'
  obtain ⟨out', hout', hr'⟩ := bind_eq_ok.1 hr'
  cases hr'
  obtain rfl : t = t' := Except.ok.inj (hr.symm.trans ht')
  cases hout
  exact Eager.height_project ht (by simpa using hitems) hout'

/-- The deferred engine makes a formula of every item, and one row if none of them has a cell for
each row. -/
theorem height_project_deferred {columns : List String} (hengine : c.engine = .deferred)
    (hr : r.collect = .ok t) (ht : t.IsRectangular) (hnames : r.names = .ok columns)
    (hitems : items ≠ []) (hw : c.project (.plain r) items = .ok w)
    (hout : w.table.collect = .ok out) :
    ∃ outputs, List.Forall₂ (fun (i : Item) (o : Output) =>
        Formula.lower i.expr columns c.functions .row = .ok o.2) items outputs ∧
      out.IsRectangular ∧
      out.height = if outputs.any fun o => o.2.spreads then t.height else 1 := by
  obtain ⟨columns', hcolumns', hw⟩ := bind_eq_ok.1 hw
  obtain rfl : columns = columns' := Except.ok.inj (hnames.symm.trans hcolumns')
  obtain ⟨r', hr', hw⟩ := bind_eq_ok.1 hw
  cases hw
  rw [Engine.project, hengine] at hr'
  obtain ⟨plan, hplan, hr'⟩ := bind_eq_ok.1 hr'
  cases hr'
  obtain ⟨s, hs, rfl⟩ := Relation.exists_schema hnames
  obtain ⟨outputs, rfl, houtputs⟩ := Deferred.lower_of_project hs hplan
  obtain ⟨t', ht', hout⟩ := bind_eq_ok.1 hout
  obtain ⟨s', -, hout⟩ := bind_eq_ok.1 hout
  obtain rfl : t = t' := Except.ok.inj (hr.symm.trans (r.collect_toPlan.symm.trans ht'))
  refine ⟨outputs, houtputs, Table.height_project ht ?_ hout⟩
  rintro rfl
  exact hitems (List.forall₂_nil_right_iff.1 houtputs)

/-- A projection has the rows of its table, or else it has one row. On the deferred engine it has
the rows of the table just if there is one or an item has a cell for each row; with functions whose
formulas read what their arguments read, these are the items that read a column. -/
theorem project_height_iff (hr : r.collect = .ok t) (ht : t.IsRectangular) (hitems : items ≠ [])
    (hw : c.project (.plain r) items = .ok w) (hout : w.table.collect = .ok out) :
    ∃ columns, r.names = .ok columns ∧ out.IsRectangular ∧
      (out.height = t.height ∨ out.height = 1) ∧
      (out.height = t.height ↔ c.engine = .eager ∨ t.height = 1 ∨
        ∃ i ∈ items, i.spreads c.functions columns = true) ∧
      ((∀ e ∈ c.functions, e.2.Spreads) →
        (out.height = t.height ↔ c.engine = .eager ∨ t.height = 1 ∨
          ∃ i ∈ items, i.expr.spreads = true)) := by
  obtain ⟨columns, hnames, -⟩ := bind_eq_ok.1 hw
  refine ⟨columns, hnames, ?_⟩
  cases hengine : c.engine with
  | eager =>
    obtain ⟨hrect, hheight⟩ := height_project_eager hengine hr ht hitems hw hout
    exact ⟨hrect, .inl hheight, iff_of_true hheight (.inl rfl),
      fun _ => iff_of_true hheight (.inl rfl)⟩
  | deferred =>
    obtain ⟨outputs, houtputs, hrect, hheight⟩ :=
      height_project_deferred hengine hr ht hnames hitems hw hout
    have hspreads : (outputs.any fun o => o.2.spreads) =
        items.any (Item.spreads c.functions columns) :=
      any_eq_of_forall₂ (houtputs.flip.imp fun o i hf => by rw [Item.spreads, hf])
    have key {p : Item → Bool} (hp : (outputs.any fun o => o.2.spreads) = items.any p) :
        out.height = t.height ↔
          Engine.deferred = Engine.eager ∨ t.height = 1 ∨ ∃ i ∈ items, p i = true := by
      rw [hheight, hp, ← List.any_eq_true]
      cases items.any p <;> simp [eq_comm]
    refine ⟨hrect, ?_, key hspreads, fun hfunctions => key (any_eq_of_forall₂
      (houtputs.flip.imp fun o i hf => Formula.spreads_ofExpr hfunctions hf))⟩
    rw [hheight]
    split
    · exact .inl rfl
    · exact .inr rfl

/-- A column of three numbers. -/
def readings : Table :=
  ⟨[⟨"n", .int64, [.int 1, .int 2, .int 3]⟩]⟩

theorem isRectangular_readings : readings.IsRectangular := by
  simp [readings, Table.IsRectangular, Table.height]

/-- The item `1 AS one`. -/
def constantItem : Item :=
  ⟨.literal (.int 1), "1", "one"⟩

/-- The item `n * 2 AS double`. -/
def doubledItem : Item :=
  ⟨.binary .mul (.column "n") (.literal (.int 2)), "n * 2", "double"⟩

theorem readings_keep_rows :
    ∃ w out, project ⟨.deferred, .builtin⟩ (.plain (.frame readings))
        [constantItem, doubledItem] = .ok w ∧
      w.table.collect = .ok out ∧ out.height = 3 := by
  obtain ⟨w, hw⟩ := exists_eq_ok (x := project ⟨.deferred, .builtin⟩ (.plain (.frame readings))
    [constantItem, doubledItem]) (by decide +kernel)
  obtain ⟨out, hout⟩ : ∃ out, w.table.collect = .ok out := by
    refine exists_eq_ok ?_
    cases hw
    decide +kernel
  obtain ⟨columns, -, -, -, -, hheight⟩ :=
    project_height_iff rfl isRectangular_readings (List.cons_ne_nil _ _) hw hout
  refine ⟨w, out, hw, hout, (hheight fun e => ScalarFunction.spreads_of_builtin).2 ?_⟩
  exact .inr (.inr ⟨doubledItem, by simp, rfl⟩)

theorem constant_drops_rows :
    ∃ w out, project ⟨.deferred, .builtin⟩ (.plain (.frame readings)) [constantItem] = .ok w ∧
      w.table.collect = .ok out ∧ readings.columns ≠ [] ∧ readings.IsRectangular ∧
      out.height ≠ readings.height :=
  ⟨_, _, rfl, rfl, List.cons_ne_nil _ _, isRectangular_readings, by decide +kernel⟩

end Setting

end TableQuery
