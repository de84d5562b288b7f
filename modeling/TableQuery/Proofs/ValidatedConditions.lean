import TableQuery.Proofs.Orderly.Session
import TableQuery.Proofs.Reading.Comments
import TableQuery.Proofs.Reading.Conditions
import TableQuery.Proofs.Reading.Pairing

/-!
# Conditions are carried out as they were read

A query text is read once, and its condition once more when the filter runs, with its equal signs
paired. Without names in backquotes both readings give one expression. So the filter hands the
expression that was read in the query to the engine, whatever is in the session, and it never fails
because its text cannot be read.
-/

namespace TableQuery

open Sql

theorem Expr.namesAreBare_of_not_mem {text : String} (h : '\x60' ∉ text.toList) :
    namesAreBare text = true := by
  unfold namesAreBare
  split
  · next ts hts =>
    rw [List.all_eq_true]
    intro t ht
    have hquote : (Text.dropBytes t.start text.toList).head? ≠ some '\x60' := fun hhead =>
      h ((Text.dropBytes_isSuffix t.start text.toList).subset (List.mem_of_head? hhead))
    simpa [Token.isQuoted] using hquote
  · rfl

namespace Select

theorem condition_of_mem_operators {q : Select} {c : String} (h : Operator.filter c ∈ q.operators) :
    c ∈ q.condition := by
  simpa [operators] using h

/-- A condition in a query without backquotes spells what was read there, also with its equal signs
paired. -/
theorem ReadsCondition.parse_paired {query c : String} {e : Expr} (h : ReadsCondition query e c)
    (hquery : '\x60' ∉ query.toList) : Expr.parse (pairSigns c) = .ok e := by
  refine Expr.parse_paired h.parse (Expr.namesAreBare_of_not_mem fun hmem => ?_)
  have hclean := h.mem hmem
  rw [stripComments, String.toList_ofList] at hclean
  rcases mem_of_mem_stripFrom hclean with hmem | hblank
  · exact hquery hmem
  · cases hblank

end Select

namespace Setting

variable {c : Setting} {condition : String} {e : Expr}

/-- A filter whose text can be read hands its expression to the engine. -/
theorem filter_eq_of_parse (h : Expr.parse (pairSigns condition) = .ok e) (w : Working) :
    c.filter w condition = (do
      return .plain (← c.engine.filter c.functions e (← w.intoPlain "FILTER"))) := by
  rw [filter, h]
  rfl

theorem settles_filter (hfs : c.functions.AreOrderly)
    (h : Expr.parse (pairSigns condition) = .ok e) (input : Option Working) :
    Settles Fault.isParse (c.checkedStep (.filter condition) input) fun _ => True := by
  refine .bind (p := fun _ => True) ?_ fun w _ => ?_
  · cases input with
    | none => exact .throw (by simp [Fault.root])
    | some w =>
      refine .lift ?_ fun _ _ => trivial
      rw [filter_eq_of_parse h]
      refine .bind ?_ fun r => .map (c.engine.orderly_filter hfs e r).parse
      unfold Working.intoPlain
      split <;> simp
  · exact .lift_bind w.table.orderly_names.parse fun _ => .pure trivial

end Setting

/-- Pairing the equal signs of a text without backquoted names does not change what it spells. So a
filter from a query without backquotes is carried out with the expression that was read in the
query, and does not fail because it cannot be read. -/
theorem filter_by_read_condition :
    (∀ text e, Expr.parse text = .ok e → namesAreBare text = true →
      Expr.parse (pairSigns text) = .ok e) ∧
    ∀ query q, Select.parse query = .ok q → '\x60' ∉ query.toList →
      ∀ condition, Operator.filter condition ∈ q.operators →
        ∃ e, Select.ReadsCondition query e condition ∧ ∀ c : Setting,
          (∀ w, c.filter w condition = do
            return .plain (← c.engine.filter c.functions e (← w.intoPlain "FILTER"))) ∧
          (c.functions.AreOrderly → ∀ input s f,
            (outcome (c.checkedStep (.filter condition) input) s).1 = .error f →
              f.isParse = false) := by
  refine ⟨fun text e => Expr.parse_paired, ?_⟩
  intro query q hq hquery condition hcondition
  obtain ⟨e, he⟩ := Select.readsCondition_of_parse hq (Select.condition_of_mem_operators hcondition)
  have hparse := he.parse_paired hquery
  refine ⟨e, he, fun c => ⟨Setting.filter_eq_of_parse hparse, ?_⟩⟩
  intro hfs input s f hf
  exact (Setting.settles_filter hfs hparse input s).1 f hf

/-- A condition with an equal sign in a literal and a doubled quote, alone and in a query with a
comment. -/
theorem literal_condition_filters_as_read :
    (∃ e, Expr.parse "b<=2 AND a='it''s = 1'" = .ok e ∧
      Expr.parse (pairSigns "b<=2 AND a='it''s = 1'") = .ok e) ∧
    ∃ q e, Select.parse "SELECT a FROM t WHERE b<=2 AND a='it''s = 1' -- a = 2" = .ok q ∧
      Operator.filter "b<=2 AND a='it''s = 1'" ∈ q.operators ∧
      Select.ReadsCondition "SELECT a FROM t WHERE b<=2 AND a='it''s = 1' -- a = 2" e
        "b<=2 AND a='it''s = 1'" ∧
      ∀ c : Setting, c.functions.AreOrderly → ∀ input s f,
        (outcome (c.checkedStep (.filter "b<=2 AND a='it''s = 1'") input) s).1 = .error f →
          f.isParse = false := by
  constructor
  · obtain ⟨e, he⟩ := exists_eq_ok (x := Expr.parse "b<=2 AND a='it''s = 1'") (by decide +kernel)
    exact ⟨e, he, filter_by_read_condition.1 _ e he (by decide +kernel)⟩
  · obtain ⟨q, hq⟩ := exists_eq_ok
      (x := Select.parse "SELECT a FROM t WHERE b<=2 AND a='it''s = 1' -- a = 2")
      (by decide +kernel)
    have hcondition : ((Select.parse
        "SELECT a FROM t WHERE b<=2 AND a='it''s = 1' -- a = 2").toOption.map
          Select.condition) = some (some "b<=2 AND a='it''s = 1'") := by decide +kernel
    rw [hq] at hcondition
    have hmem : Operator.filter "b<=2 AND a='it''s = 1'" ∈ q.operators := by
      simp [Select.operators, Option.some.inj hcondition]
    obtain ⟨e, he, hfilter⟩ := filter_by_read_condition.2 _ q hq (by decide) _ hmem
    exact ⟨q, e, hq, hmem, he, fun c => (hfilter c).2⟩

end TableQuery
