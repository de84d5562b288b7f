import TableQuery.Proofs.Engines.LogicalConditions
import TableQuery.Proofs.Reading.EnclosedConditions
import TableQuery.Proofs.StepByStep
import TableQuery.Proofs.ValidatedConditions
import TableQuery.Proofs.WellShaped

/-!
# A condition, its negation and its absence

In every row a condition says yes, says no or says nothing. Negation keeps the rows in which it says
no, and the test for null those in which it says nothing: whatever kind of value it has there, the
three filters together keep every row once.
-/

namespace TableQuery

/-! ## Values -/

namespace Scalar

/-- Only null says nothing. -/
theorem isNull_eq (v : Scalar) : v.isNull = v.truth?.isNone := by
  cases v <;> rfl

theorem holds_complement (v : Scalar) : v.complement.holds = (!v.holds && !v.isNull) := by
  rw [isNull_eq, holds, holds, complement]
  cases v.truth? with
  | none => rfl
  | some b => cases b <;> rfl

theorem holds_bool_isNull (v : Scalar) : (Scalar.bool v.isNull).holds = v.isNull := by
  cases v <;> rfl

theorem holds_of_isNull (v : Scalar) (h : v.isNull = true) : v.holds = false := by
  rw [isNull_eq, Option.isNone_iff_eq_none] at h
  rw [holds, h]
  rfl

end Scalar

/-! ## Evaluation -/

namespace Bound

variable {d : Loaded} {x y : Bound} {vs : List Scalar}

/-- A value in every row. -/
theorem evalRows_eq_ok : x.evalRows d = .ok vs ↔
    vs.length = d.height ∧ ∀ row v, vs[row]? = some v → x.eval d (.single row) = .ok (.one v) := by
  rw [evalRows, mapM_eq_ok, List.forall₂_iff_get]
  simp only [List.length_range, List.get_eq_getElem, List.getElem_range]
  constructor
  · rintro ⟨hlength, hvalues⟩
    refine ⟨hlength.symm, fun row v hv => ?_⟩
    obtain ⟨hrow, rfl⟩ := List.getElem?_eq_some_iff.1 hv
    obtain ⟨u, hu, hsingle⟩ := bind_eq_ok.1 (hvalues row (hlength ▸ hrow) hrow)
    rw [hu, Datum.single_eq_ok.1 hsingle]
  · rintro ⟨hlength, hvalues⟩
    refine ⟨hlength.symm, fun row _ hrow => ?_⟩
    rw [hvalues row vs[row] (List.getElem?_eq_getElem hrow)]
    rfl

/-- What is computed from the value of one expression alone is computed in the same rows. -/
theorem evalRows_map {f : Scalar → Scalar}
    (h : ∀ r, y.eval d r = (do return (← x.eval d r).map f)) (hvs : x.evalRows d = .ok vs) :
    y.evalRows d = .ok (vs.map f) := by
  obtain ⟨hlength, hvalues⟩ := evalRows_eq_ok.1 hvs
  refine evalRows_eq_ok.2 ⟨(List.length_map f).trans hlength, fun row v hv => ?_⟩
  rw [List.getElem?_map] at hv
  obtain ⟨u, hu, rfl⟩ := Option.map_eq_some_iff.1 hv
  rw [h, hvalues row u hu]
  rfl

end Bound

namespace Eager

variable {functions : Functions} {e : Expr} {t : Table} {vs : List Scalar}

/-- An expression whose value is computed from that of another one, which reads the same columns. -/
theorem rowValues_map {e' : Expr} {f : Scalar → Scalar}
    (h : ∀ x, Bound.bind e t.names functions .row = .ok x →
      ∃ y, Bound.bind e' t.names functions .row = .ok y ∧ y.referenced = x.referenced ∧
        ∀ d r, y.eval d r = (do return (← x.eval d r).map f))
    (hvs : rowValues functions e t = .ok vs) : rowValues functions e' t = .ok (vs.map f) := by
  obtain ⟨x, hx, hvs⟩ := bind_eq_ok.1 hvs
  obtain ⟨d, hd, hvs⟩ := bind_eq_ok.1 hvs
  obtain ⟨y, hy, hreferenced, heval⟩ := h x hx
  rw [rowValues, hy, ok_bind, hreferenced, hd, ok_bind]
  exact Bound.evalRows_map (heval d) hvs

theorem rowValues_not (h : rowValues functions e t = .ok vs) :
    rowValues functions (.not e) t = .ok (vs.map Scalar.complement) := by
  refine rowValues_map (fun x hx => ⟨.not x, ?_, rfl, fun d r => rfl⟩) h
  rw [Bound.bind, Bound.ofExpr, ← Bound.bind, hx]
  rfl

theorem rowValues_isNull (h : rowValues functions e t = .ok vs) :
    rowValues functions (.isNull e false) t = .ok (vs.map fun v => .bool v.isNull) := by
  refine rowValues_map (fun x hx => ⟨.isNull x false, ?_, rfl, fun d r => ?_⟩) h
  · rw [Bound.bind, Bound.ofExpr, ← Bound.bind, hx]
    rfl
  · simp [Bound.eval]

end Eager

/-! ## Rows -/

/-- The rows in which the values pass a test, in their order. -/
def passingRows (test : Scalar → Bool) (vs : List Scalar) : List Nat :=
  (List.range vs.length).filter fun row => test (vs[row]?.getD .null)

theorem pairwise_passingRows (test : Scalar → Bool) (vs : List Scalar) :
    (passingRows test vs).Pairwise (· < ·) :=
  List.pairwise_lt_range.filter _

/-- A test of computed values is a test of the values that they are computed from. -/
theorem passingRows_map {test : Scalar → Bool} {f : Scalar → Scalar} (vs : List Scalar) :
    passingRows test (vs.map f) = passingRows (fun v => test (f v)) vs := by
  unfold passingRows
  rw [List.length_map]
  refine List.filter_congr fun row hrow => ?_
  rw [List.getElem?_map, List.getElem?_eq_getElem (List.mem_range.1 hrow)]
  rfl

/-- Every row passes one of three tests if every value does. -/
theorem perm_passingRows {yes no unknown : Scalar → Bool} (hno : ∀ v, no v = (!yes v && !unknown v))
    (hunknown : ∀ v, unknown v = true → yes v = false) (vs : List Scalar) :
    (passingRows yes vs ++ passingRows no vs ++ passingRows unknown vs).Perm
      (List.range vs.length) := by
  unfold passingRows
  generalize List.range vs.length = rows
  have hno' : rows.filter (fun row => no (vs[row]?.getD .null)) =
      (rows.filter fun row => !yes (vs[row]?.getD .null)).filter
        fun row => !unknown (vs[row]?.getD .null) := by
    rw [List.filter_filter]
    exact List.filter_congr fun row _ => by rw [hno, Bool.and_comm]
  have hunknown' : rows.filter (fun row => unknown (vs[row]?.getD .null)) =
      (rows.filter fun row => !yes (vs[row]?.getD .null)).filter
        fun row => unknown (vs[row]?.getD .null) := by
    rw [List.filter_filter]
    refine List.filter_congr fun row _ => ?_
    cases h : unknown (vs[row]?.getD .null) with
    | false => rfl
    | true => rw [hunknown _ h]; rfl
  rw [hno', hunknown', List.append_assoc]
  refine (List.Perm.append_left _ ?_).trans (List.filter_append_perm _ rows)
  exact List.perm_append_comm.trans (List.filter_append_perm _ _)

namespace Table

/-- A filter on values takes the rows in which they pass. -/
theorem filter_eq_take {t : Table} (ht : t.IsRectangular) (test : Scalar → Bool) {vs : List Scalar}
    (hvs : vs.length = t.height) : t.filter (vs.map test) = t.take (passingRows test vs) := by
  have hmask : vs.map test = (List.range t.height).map fun row => test (vs[row]?.getD .null) := by
    refine List.ext_getElem (by simp [hvs]) fun row h₁ h₂ => ?_
    have hrow : row < vs.length := by simpa using h₁
    simp [List.getElem?_eq_getElem hrow]
  rw [filter, take, hmask, passingRows, hvs]
  congr 1
  refine List.map_congr_left fun c hc => ?_
  rw [filter_cells (ht c hc), Column.take]
  simp [List.map_map, Function.comp_def]

end Table

namespace Setting

variable {c : Setting}

/-- A filter that succeeds has read its condition, and the table is not grouped. -/
theorem exists_of_filter {input w : Working} {p : String} (h : c.filter input p = .ok w) :
    ∃ e r, Expr.parse (Sql.pairSigns p) = .ok e ∧ input.keys = none ∧
      c.engine.filter c.functions e input.table = .ok r ∧ w = .plain r := by
  unfold filter at h
  split at h
  · next e he =>
    obtain ⟨_, ⟨⟩, h⟩ := bind_eq_ok.1 h
    obtain ⟨r, hplain, h⟩ := bind_eq_ok.1 h
    obtain ⟨hkeys, rfl⟩ := Working.intoPlain_eq_ok.1 hplain
    obtain ⟨r', hr', h⟩ := bind_eq_ok.1 h
    cases h
    exact ⟨e, r', he, hkeys, hr', rfl⟩
  · cases h

/-- On a table at hand a filter takes the rows in which the value of its condition says yes. -/
theorem filter_eager (heager : c.engine = .eager) {input : Working} {t : Table}
    (hkeys : input.keys = none) (ht : input.table.collect = .ok t) (hrect : t.IsRectangular)
    {p : String} {e : Expr} (he : Expr.parse (Sql.pairSigns p) = .ok e) {vs : List Scalar}
    (hvs : Eager.rowValues c.functions e t = .ok vs) :
    c.filter input p = .ok (.plain (.frame (t.take (passingRows Scalar.holds vs)))) := by
  have hplain : input.intoPlain "FILTER" = .ok input.table := Working.intoPlain_eq_ok.2 ⟨hkeys, rfl⟩
  have hengine : Engine.eager.filter c.functions e input.table =
      .ok (.frame (t.take (passingRows Scalar.holds vs))) := by
    rw [← Table.filter_eq_take hrect _ (Eager.length_rowValues hvs), Engine.filter, Engine.apply,
      ht, ok_bind, Eager.filter, hvs]
    rfl
  rw [filter_eq_of_parse he, hplain, ok_bind, heager, hengine]
  rfl

/-- Where a condition filters a table at hand, its negation and the test of it for null do so too,
and each row is kept by exactly one of the three. -/
theorem filter_trichotomy (heager : c.engine = .eager) (hfs : c.functions = .builtin)
    {input w : Working} {t : Table} (ht : input.table.collect = .ok t) (hrect : t.IsRectangular)
    {p : String} (h : c.filter input p = .ok w) :
    ∃ yes no unknown : List Nat,
      w = .plain (.frame (t.take yes)) ∧
      c.filter input ("NOT (" ++ p ++ ")") = .ok (.plain (.frame (t.take no))) ∧
      c.filter input ("(" ++ p ++ ") IS NULL") = .ok (.plain (.frame (t.take unknown))) ∧
      yes.Pairwise (· < ·) ∧ no.Pairwise (· < ·) ∧ unknown.Pairwise (· < ·) ∧
      (yes ++ no ++ unknown).Perm (List.range t.height) := by
  obtain ⟨e, r, he, hkeys, hr, -⟩ := exists_of_filter h
  obtain ⟨vs, hvs⟩ : ∃ vs, Eager.rowValues c.functions e t = .ok vs := by
    rw [heager, Engine.filter, Engine.apply, ht, ok_bind] at hr
    obtain ⟨out, hout, -⟩ := bind_eq_ok.1 hr
    obtain ⟨vs, hvs, -⟩ := bind_eq_ok.1 hout
    exact ⟨vs, hvs⟩
  obtain ⟨x, hx, -⟩ := bind_eq_ok.1 hvs
  rw [hfs] at hx
  obtain ⟨hnot, hnull⟩ := Expr.parse_enclosed he hx
  have hyes := filter_eager heager hkeys ht hrect he hvs
  have hno := filter_eager heager hkeys ht hrect hnot (Eager.rowValues_not hvs)
  have hunknown := filter_eager heager hkeys ht hrect hnull (Eager.rowValues_isNull hvs)
  rw [passingRows_map] at hno hunknown
  refine ⟨_, _, _, Except.ok.inj (h.symm.trans hyes), hno, hunknown, pairwise_passingRows _ _,
    pairwise_passingRows _ _, pairwise_passingRows _ _, ?_⟩
  rw [← Eager.length_rowValues hvs]
  simp only [Scalar.holds_complement, Scalar.holds_bool_isNull]
  exact perm_passingRows (fun _ => rfl) Scalar.holds_of_isNull vs

/-- Ages, one of them missing and one of them zero. -/
def ages : Table :=
  ⟨[⟨"age", .int64, [.int 0, .null, .int 7]⟩]⟩

theorem filter_trichotomy_ages :
    let c : Setting := ⟨.eager, .builtin⟩
    let input := Working.plain (.frame ages)
    ∃ w, c.filter input "age OR age = 0 AND NULL" = .ok w ∧
      ∃ yes no unknown : List Nat,
        w = .plain (.frame (ages.take yes)) ∧
        c.filter input ("NOT (" ++ "age OR age = 0 AND NULL" ++ ")") =
          .ok (.plain (.frame (ages.take no))) ∧
        c.filter input ("(" ++ "age OR age = 0 AND NULL" ++ ") IS NULL") =
          .ok (.plain (.frame (ages.take unknown))) ∧
        yes.Pairwise (· < ·) ∧ no.Pairwise (· < ·) ∧ unknown.Pairwise (· < ·) ∧
        (yes ++ no ++ unknown).Perm (List.range ages.height) := by
  intro c input
  obtain ⟨w, hw⟩ := exists_eq_ok (x := c.filter input "age OR age = 0 AND NULL")
    (by decide +kernel)
  have hrect : ages.IsRectangular := by
    unfold Table.IsRectangular
    decide
  exact ⟨w, hw, filter_trichotomy rfl rfl rfl hrect hw⟩

end Setting

end TableQuery
