import TableQuery.Proofs.FilteredRows
import TableQuery.Proofs.ReadColumns

/-!
# Filters one after the other

A filter keeps the rows in which its condition says yes. In a row that has been kept a further
condition reads the same values as in the whole table, so it says the same. A conjunction says yes
just where both of its conditions do. So filtering by it is filtering by one of them and then by the
other, in either order.
-/

namespace TableQuery

/-! ## Masks -/

section

variable {α β : Type}

/-- The elements of a list that a mask keeps. -/
def kept (mask : List Bool) (xs : List α) : List α :=
  ((xs.zip mask).filter Prod.snd).map Prod.fst

@[simp]
theorem kept_nil (mask : List Bool) : kept mask ([] : List α) = [] := by
  rw [kept, List.zip_nil_left, List.filter_nil, List.map_nil]

@[simp]
theorem nil_kept (xs : List α) : kept [] xs = [] := by
  rw [kept, List.zip_nil_right, List.filter_nil, List.map_nil]

@[simp]
theorem kept_cons_true (mask : List Bool) (x : α) (xs : List α) :
    kept (true :: mask) (x :: xs) = x :: kept mask xs :=
  rfl

@[simp]
theorem kept_cons_false (mask : List Bool) (x : α) (xs : List α) :
    kept (false :: mask) (x :: xs) = kept mask xs :=
  rfl

theorem kept_map (f : α → β) (mask : List Bool) (xs : List α) :
    kept mask (xs.map f) = (kept mask xs).map f := by
  induction mask generalizing xs with
  | nil => simp
  | cons b mask ih =>
    cases xs with
    | nil => simp
    | cons x xs => cases b <;> simp [ih]

/-- What a mask keeps, and of that another mask, is what both of them keep. -/
theorem kept_kept (mask mask' : List Bool) (xs : List α) :
    kept (kept mask mask') (kept mask xs) = kept (List.zipWith and mask mask') xs := by
  induction mask generalizing mask' xs with
  | nil => simp
  | cons b mask ih =>
    cases mask' with
    | nil => cases xs <;> simp
    | cons b' mask' =>
      cases xs with
      | nil => simp
      | cons x xs => cases b <;> cases b' <;> simp [ih]

/-- The places that a mask keeps. -/
def keptRows : List Bool → List Nat
  | [] => []
  | b :: mask =>
    let rows := (keptRows mask).map (· + 1)
    if b then 0 :: rows else rows

/-- What is kept stands at the places that are kept. -/
theorem getElem?_kept (mask : List Bool) (xs : List α) (i : Nat) :
    (kept mask xs)[i]? = (keptRows mask)[i]?.bind fun row => xs[row]? := by
  induction mask generalizing xs i with
  | nil => simp [keptRows]
  | cons b mask ih =>
    cases xs with
    | nil => simp
    | cons x xs =>
      cases b with
      | false => simp [keptRows, ih, Option.bind_map]
      | true => cases i <;> simp [keptRows, ih, Option.bind_map]

theorem length_kept {mask : List Bool} {xs : List α} (h : xs.length = mask.length) :
    (kept mask xs).length = (keptRows mask).length := by
  induction mask generalizing xs with
  | nil => simp [keptRows]
  | cons b mask ih =>
    cases xs with
    | nil => cases h
    | cons x xs =>
      have hrest := ih (Nat.succ.inj h)
      cases b <;> simp [keptRows, hrest]

end

/-! ## Tables -/

namespace Table

variable {t : Table} {mask : List Bool}

theorem column_filter (mask : List Bool) (t : Table) (name : String) :
    (t.filter mask).column name =
      (t.column name).map fun c => { c with cells := kept mask c.cells } :=
  column_map (f := fun c => { c with cells := kept mask c.cells }) (fun _ => rfl) name

theorem height_filter (h : mask.length = t.height) :
    (t.filter mask).height = (keptRows mask).length := by
  obtain ⟨columns⟩ := t
  cases columns with
  | nil =>
    rw [List.eq_nil_of_length_eq_zero h]
    rfl
  | cons c columns =>
    have hcells : c.cells.length = mask.length := h.symm
    exact length_kept hcells

/-- Filters one after the other are one filter. -/
theorem filter_filter (mask mask' : List Bool) (t : Table) :
    (t.filter mask).filter (kept mask mask') = t.filter (List.zipWith and mask mask') := by
  simp only [filter, List.map_map]
  refine congrArg Table.mk (List.map_congr_left fun c _ => ?_)
  exact congrArg (Column.mk c.name c.type) (kept_kept mask mask' c.cells)

end Table

/-! ## Evaluation -/

/-- What is loaded from a filtered table stands at the places that are kept. -/
theorem Rows.column_of_filter {t : Table} {mask : List Bool} {names : List String} {d d' : Loaded}
    (hd : d.Holds t names) (hd' : d'.Holds (t.filter mask) names) {name : String}
    (hname : name ∈ names) {i row : Nat} (hrow : (keptRows mask)[i]? = some row) :
    (Rows.single i).column d' name = (Rows.single row).column d name := by
  obtain ⟨c, hc, hvalues⟩ := hd name hname
  obtain ⟨c', hc', hvalues'⟩ := hd' name hname
  rw [Table.column_filter, hc] at hc'
  cases hc'
  have hscalars : (kept mask c.cells).map (Cell.scalar c.type) = kept mask c.scalars :=
    (kept_map _ mask c.cells).symm
  simp only [column, hvalues, hvalues', Column.scalars, hscalars, ok_bind, List.getElem?_toArray]
  rw [getElem?_kept, hrow]
  rfl

namespace Bound

variable {d d' : Loaded} {x y : Bound} {t : Table} {mask : List Bool} {vs ws : List Scalar}

/-- In the rows that are kept an expression has the values that it had. -/
theorem evalRows_of_filter (hmask : mask.length = t.height)
    (hd : Loaded.ofTable t x.referenced = .ok d)
    (hd' : Loaded.ofTable (t.filter mask) x.referenced = .ok d') (h : x.evalRows d = .ok vs) :
    x.evalRows d' = .ok (kept mask vs) := by
  obtain ⟨hheight, hholds⟩ := Loaded.ofTable_eq_ok hd
  obtain ⟨hheight', hholds'⟩ := Loaded.ofTable_eq_ok hd'
  obtain ⟨hlength, hvalues⟩ := evalRows_eq_ok.1 h
  refine evalRows_eq_ok.2 ⟨?_, fun i v hv => ?_⟩
  · rw [hheight', Table.height_filter hmask]
    exact length_kept (hlength.trans (hheight.trans hmask.symm))
  · rw [getElem?_kept] at hv
    obtain ⟨row, hrow, hv⟩ := Option.bind_eq_some_iff.1 hv
    have hcount : (Rows.single i).count = (Rows.single row).count := rfl
    rw [eval_congr hcount x fun name hname =>
      Rows.column_of_filter hholds hholds' (mem_firsts.2 hname) hrow]
    exact hvalues row v hv

/-- A conjunction has the values that its conditions have together. -/
theorem evalRows_and (hx : x.evalRows d = .ok vs) (hy : y.evalRows d = .ok ws) :
    (binary .and x y).evalRows d =
      .ok (List.zipWith (fun v w => Scalar.ofTruth (Truth.both v.truth? w.truth?)) vs ws) := by
  obtain ⟨hvs, hx⟩ := evalRows_eq_ok.1 hx
  obtain ⟨hws, hy⟩ := evalRows_eq_ok.1 hy
  refine evalRows_eq_ok.2 ⟨by simp [hvs, hws], fun row u hu => ?_⟩
  obtain ⟨v, w, hv, hw, rfl⟩ := List.getElem?_zipWith_eq_some.1 hu
  rw [eval, hx row v hv, hy row w hw]
  rfl

end Bound

/-- A conjunction says yes just where both conditions do. -/
theorem Scalar.holds_and (v w : Scalar) :
    (ofTruth (Truth.both v.truth? w.truth?)).holds = (v.holds && w.holds) := by
  rw [holds, holds, holds]
  rcases v.truth? with _ | _ | _ <;> rcases w.truth? with _ | _ | _ <;> rfl

namespace Eager

variable {fs : Functions} {e p q : Expr} {t : Table} {vs ws : List Scalar}

/-- In the rows that are kept an expression has the values that it had in the whole table. -/
theorem rowValues_of_filter {mask : List Bool} (hmask : mask.length = t.height)
    (h : rowValues fs e t = .ok vs) : rowValues fs e (t.filter mask) = .ok (kept mask vs) := by
  obtain ⟨x, hx, h⟩ := bind_eq_ok.1 h
  obtain ⟨d, hd, h⟩ := bind_eq_ok.1 h
  obtain ⟨d', hd', -⟩ := Loaded.exists_ofTable (t.filter mask) x.referenced <| by
    rw [Table.names_filter]
    exact Loaded.mem_names_of_ofTable hd
  rw [rowValues, Table.names_filter, hx, ok_bind, hd', ok_bind]
  exact Bound.evalRows_of_filter hmask hd hd' h

/-- Two conditions with a value in every row have a conjunction with the values that they have
together. -/
theorem rowValues_and (hp : rowValues fs p t = .ok vs) (hq : rowValues fs q t = .ok ws) :
    rowValues fs (.binary .and p q) t =
      .ok (List.zipWith (fun v w => Scalar.ofTruth (Truth.both v.truth? w.truth?)) vs ws) := by
  obtain ⟨x, hx, hp⟩ := bind_eq_ok.1 hp
  obtain ⟨y, hy, hq⟩ := bind_eq_ok.1 hq
  have hbind : Bound.bind (.binary .and p q) t.names fs .row = .ok (.binary .and x y) := by
    rw [Bound.bind, Bound.ofExpr, ← Bound.bind, ← Bound.bind, hx, hy]
    rfl
  obtain ⟨dx, hdx, hvs⟩ := bind_eq_ok.1 hp
  obtain ⟨dy, hdy, hws⟩ := bind_eq_ok.1 hq
  have hreads (name : String) : name ∈ (Bound.binary .and x y).referenced ↔
      name ∈ x.referenced ∨ name ∈ y.referenced := by
    simp only [Bound.referenced, Bound.mem_firsts, Bound.reads, List.mem_append]
  obtain ⟨d, hd, -⟩ := Loaded.exists_ofTable t (Bound.binary .and x y).referenced fun name hname =>
    ((hreads name).1 hname).elim (Loaded.mem_names_of_ofTable hdx name)
      (Loaded.mem_names_of_ofTable hdy name)
  obtain ⟨hpwider, -⟩ :=
    Bound.eval_of_wider (.refl _ t) (fun name h => (hreads name).2 (.inl h)) hd
  obtain ⟨hqwider, -⟩ :=
    Bound.eval_of_wider (.refl _ t) (fun name h => (hreads name).2 (.inr h)) hd
  rw [rowValues, hbind, ok_bind, hd, ok_bind]
  exact Bound.evalRows_and (hpwider.trans hp) (hqwider.trans hq)

theorem filter_eq_ok {out : Table} : filter fs e t = .ok out ↔
    ∃ vs, rowValues fs e t = .ok vs ∧ t.filter (vs.map Scalar.holds) = out := by
  rw [filter, bind_eq_ok]
  simp only [pure_eq_ok]

/-- Where two conditions can be filtered by, so can their conjunction, which is filtering by the one
and then by the other. -/
theorem filter_and {tp tq : Table} (hp : filter fs p t = .ok tp) (hq : filter fs q t = .ok tq) :
    ∃ out, filter fs (.binary .and p q) t = .ok out ∧ filter fs q tp = .ok out ∧
      filter fs p tq = .ok out := by
  obtain ⟨vs, hvs, rfl⟩ := filter_eq_ok.1 hp
  obtain ⟨ws, hws, rfl⟩ := filter_eq_ok.1 hq
  have hlength {us : List Scalar} {e : Expr} (h : rowValues fs e t = .ok us) :
      (us.map Scalar.holds).length = t.height := by
    rw [List.length_map, length_rowValues h]
  refine ⟨t.filter (List.zipWith and (vs.map Scalar.holds) (ws.map Scalar.holds)), ?_, ?_, ?_⟩
  · refine filter_eq_ok.2 ⟨_, rowValues_and hvs hws, congrArg (t.filter ·) ?_⟩
    simp only [List.map_zipWith, List.zipWith_map, Scalar.holds_and]
  · refine filter_eq_ok.2 ⟨_, rowValues_of_filter (hlength hvs) hws, ?_⟩
    rw [← kept_map, Table.filter_filter]
  · refine filter_eq_ok.2 ⟨_, rowValues_of_filter (hlength hws) hvs, ?_⟩
    rw [← kept_map, Table.filter_filter, List.zipWith_comm_of_comm Bool.and_comm]

end Eager

/-! ## Operators -/

theorem Engine.filter_eager_eq_ok {fs : Functions} {e : Expr} {r out : Relation} :
    Engine.eager.filter fs e r = .ok out ↔
      ∃ t u, r.collect = .ok t ∧ Eager.filter fs e t = .ok u ∧ out = .frame u := by
  rw [filter, apply, bind_eq_ok]
  refine exists_congr fun t => ?_
  simp only [bind_eq_ok, pure_eq_ok, ← exists_and_left, eq_comm (b := out)]

/-- The engine that works on tables at hand composes filters in this way. -/
theorem Engine.filter_and {fs : Functions} {p q : Expr} {r rp rq : Relation}
    (hp : Engine.eager.filter fs p r = .ok rp) (hq : Engine.eager.filter fs q r = .ok rq) :
    ∃ out, Engine.eager.filter fs (.binary .and p q) r = .ok out ∧
      Engine.eager.filter fs q rp = .ok out ∧ Engine.eager.filter fs p rq = .ok out := by
  obtain ⟨t, tp, ht, htp, rfl⟩ := filter_eager_eq_ok.1 hp
  obtain ⟨t', tq, ht', htq, rfl⟩ := filter_eager_eq_ok.1 hq
  cases ht.symm.trans ht'
  obtain ⟨out, hand, hpq, hqp⟩ := Eager.filter_and htp htq
  exact ⟨.frame out, filter_eager_eq_ok.2 ⟨t, out, ht, hand, rfl⟩,
    filter_eager_eq_ok.2 ⟨tp, out, rfl, hpq, rfl⟩, filter_eager_eq_ok.2 ⟨tq, out, rfl, hqp, rfl⟩⟩

namespace Setting

variable {c : Setting} {input w : Working} {p : String} {e : Expr}

/-- An operator that filters works on a table that is not grouped, as its engine does. -/
theorem filter_eq_ok (he : Expr.parse (Sql.pairSigns p) = .ok e) : c.filter input p = .ok w ↔
    input.keys = none ∧ ∃ r, c.engine.filter c.functions e input.table = .ok r ∧ w = .plain r := by
  constructor
  · intro h
    obtain ⟨e', r, he', hkeys, hr, rfl⟩ := exists_of_filter h
    cases he.symm.trans he'
    exact ⟨hkeys, r, hr, rfl⟩
  · rintro ⟨hkeys, r, hr, rfl⟩
    rw [filter_eq_of_parse he, Working.intoPlain_eq_ok.2 ⟨hkeys, rfl⟩, ok_bind, hr]
    rfl

/-- On tables at hand a filter binds its condition to columns and functions. -/
theorem exists_bind_of_filter (heager : c.engine = .eager)
    (he : Expr.parse (Sql.pairSigns p) = .ok e) (h : c.filter input p = .ok w) :
    ∃ columns x, Bound.bind e columns c.functions .row = .ok x := by
  obtain ⟨-, r, hr, -⟩ := (filter_eq_ok he).1 h
  rw [heager] at hr
  obtain ⟨t, u, -, hu, -⟩ := Engine.filter_eager_eq_ok.1 hr
  obtain ⟨vs, hvs, -⟩ := Eager.filter_eq_ok.1 hu
  obtain ⟨x, hx, -⟩ := bind_eq_ok.1 hvs
  exact ⟨t.names, x, hx⟩

/-- Operators that filter by two conditions and by what is read as their conjunction. -/
theorem filter_read_conjunction (heager : c.engine = .eager) {q both : String} {f : Expr}
    (he : Expr.parse (Sql.pairSigns p) = .ok e) (hf : Expr.parse (Sql.pairSigns q) = .ok f)
    (hboth : Expr.parse (Sql.pairSigns both) = .ok (.binary .and e f)) {wp wq : Working}
    (hwp : c.filter input p = .ok wp) (hwq : c.filter input q = .ok wq) :
    ∃ out, c.filter input both = .ok out ∧ c.filter wp q = .ok out ∧ c.filter wq p = .ok out := by
  obtain ⟨hkeys, rp, hrp, rfl⟩ := (filter_eq_ok he).1 hwp
  obtain ⟨-, rq, hrq, rfl⟩ := (filter_eq_ok hf).1 hwq
  rw [heager] at hrp hrq
  obtain ⟨out, hand, hpq, hqp⟩ := Engine.filter_and hrp hrq
  rw [← heager] at hand hpq hqp
  exact ⟨.plain out, (filter_eq_ok hboth).2 ⟨hkeys, out, hand, rfl⟩,
    (filter_eq_ok hf).2 ⟨rfl, out, hpq, rfl⟩, (filter_eq_ok he).2 ⟨rfl, out, hqp, rfl⟩⟩

/-- A conjunction filters as its two conditions do, one after the other. On tables at hand, for
whatever functions: where each of two conditions can filter a table, their conjunction can, and the
table that it leaves is the one that either condition leaves of what the other has left. So it is
for operators, by how their texts are read; and with the built-in functions two conditions in
parentheses with `AND` between them are read in this way, if the first has no backquote, behind
which equal signs could be paired in another way. -/
theorem filter_conjunction (fs : Functions) :
    (∀ p q r rp rq, Engine.eager.filter fs p r = .ok rp → Engine.eager.filter fs q r = .ok rq →
      ∃ out, Engine.eager.filter fs (.binary .and p q) r = .ok out ∧
        Engine.eager.filter fs q rp = .ok out ∧ Engine.eager.filter fs p rq = .ok out) ∧
    (∀ (p q both : String) (e f : Expr), Expr.parse (Sql.pairSigns p) = .ok e →
      Expr.parse (Sql.pairSigns q) = .ok f →
      Expr.parse (Sql.pairSigns both) = .ok (.binary .and e f) →
      let c : Setting := ⟨.eager, fs⟩
      ∀ input wp wq, c.filter input p = .ok wp → c.filter input q = .ok wq →
        ∃ out, c.filter input both = .ok out ∧ c.filter wp q = .ok out ∧
          c.filter wq p = .ok out) ∧
    ∀ p q : String, '\x60' ∉ p.toList →
      let c : Setting := ⟨.eager, .builtin⟩
      ∀ input wp wq, c.filter input p = .ok wp → c.filter input q = .ok wq →
        ∃ out, c.filter input ("(" ++ p ++ ") AND (" ++ q ++ ")") = .ok out ∧
          c.filter wp q = .ok out ∧ c.filter wq p = .ok out := by
  refine ⟨fun p q r rp rq => Engine.filter_and, ?_, ?_⟩
  · intro p q both e f he hf hboth c input wp wq hwp hwq
    exact filter_read_conjunction rfl he hf hboth hwp hwq
  · intro p q hquote c input wp wq hwp hwq
    obtain ⟨e, _, he, -⟩ := exists_of_filter hwp
    obtain ⟨f, _, hf, -⟩ := exists_of_filter hwq
    obtain ⟨columns, x, hx⟩ := exists_bind_of_filter rfl he hwp
    obtain ⟨columns', y, hy⟩ := exists_bind_of_filter rfl hf hwq
    have hboth := Expr.parse_conjunction he hf hquote hx hy
    exact filter_read_conjunction rfl he hf hboth hwp hwq

/-- Members, some of them without a name or an age. -/
def members : Table :=
  ⟨[⟨"age", .int64, [.int 0, .null, .int 7, .int 3]⟩,
    ⟨"name", .str, [.str "ann", .str "bob", .str "cy", .null]⟩]⟩

/-- `age IS NULL OR age > 3`, true for some members and false for others. -/
def mayBeOld : Expr :=
  .binary .or (.isNull (.column "age") false)
    (.binary .gt (.column "age") (.literal (.int 3)))

/-- `name IN ("cy", "dee")`, unknown for a member without a name. -/
def isListed : Expr :=
  .inList (.column "name") [.literal (.str "cy"), .literal (.str "dee")] false

theorem filter_conjunction_members :
    let c : Setting := ⟨.eager, .builtin⟩
    let input := Working.plain (.frame members)
    (∃ rp rq out, Engine.eager.filter .builtin mayBeOld (.frame members) = .ok rp ∧
      Engine.eager.filter .builtin isListed (.frame members) = .ok rq ∧
      Engine.eager.filter .builtin (.binary .and mayBeOld isListed) (.frame members) = .ok out ∧
      Engine.eager.filter .builtin isListed rp = .ok out ∧
      Engine.eager.filter .builtin mayBeOld rq = .ok out) ∧
    ∃ wp wq out, c.filter input "age > 1" = .ok wp ∧ c.filter input "name='cy' OR name" = .ok wq ∧
      c.filter input ("(" ++ "age > 1" ++ ") AND (" ++ "name='cy' OR name" ++ ")") = .ok out ∧
      c.filter wp "name='cy' OR name" = .ok out ∧ c.filter wq "age > 1" = .ok out := by
  intro c input
  constructor
  · obtain ⟨rp, hrp⟩ := exists_eq_ok
      (x := Engine.eager.filter .builtin mayBeOld (.frame members)) (by decide +kernel)
    obtain ⟨rq, hrq⟩ := exists_eq_ok
      (x := Engine.eager.filter .builtin isListed (.frame members)) (by decide +kernel)
    obtain ⟨out, hout⟩ := (filter_conjunction .builtin).1 _ _ _ _ _ hrp hrq
    exact ⟨rp, rq, out, hrp, hrq, hout⟩
  · obtain ⟨wp, hwp⟩ := exists_eq_ok (x := c.filter input "age > 1") (by decide +kernel)
    obtain ⟨wq, hwq⟩ := exists_eq_ok (x := c.filter input "name='cy' OR name") (by decide +kernel)
    obtain ⟨out, hout⟩ := (filter_conjunction .builtin).2.2 _ _ (by decide) input wp wq hwp hwq
    exact ⟨wp, wq, out, hwp, hwq, hout⟩

end Setting

end TableQuery
