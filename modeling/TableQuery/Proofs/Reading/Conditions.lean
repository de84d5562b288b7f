import TableQuery.Proofs.Reading.ItemTexts

/-!
# The condition of a query

Where the tokens of a query hold its parts: the select items stand between the first word and the
word `FROM`, and the condition stands behind a word `WHERE` further on. The condition is kept as a
text; the expression that was read there is the one against which its later readings are measured.
-/

namespace TableQuery

namespace Text

theorem dropBytes_isSuffix (n : Nat) (cs : List Char) : dropBytes n cs <:+ cs := by
  fun_induction dropBytes n cs with
  | case1 cs => exact List.suffix_rfl
  | case2 => exact List.suffix_rfl
  | case3 n c cs ih => exact ih.trans (List.suffix_cons c cs)

theorem takeBytes_isPrefix (n : Nat) (cs : List Char) : takeBytes n cs <+: cs := by
  fun_induction takeBytes n cs with
  | case1 cs => exact List.nil_prefix
  | case2 => exact List.nil_prefix
  | case3 n c cs ih => exact (List.prefix_cons_inj c).2 ih

theorem mem_of_mem_slice {cs : List Char} {start stop : Nat} {c : Char}
    (h : c ∈ slice cs start stop) : c ∈ cs :=
  (dropBytes_isSuffix start cs).subset ((takeBytes_isPrefix _ _).subset h)

end Text

namespace Sql

variable {src : List Char} {ts : List Token}

theorem require_eq_ok {k : Keyword} {rest : List Token} (h : require src k ts = .ok rest) :
    ∃ t, ts = t :: rest ∧ t.isKeyword k = true := by
  unfold require at h
  split at h
  · next hk =>
    cases h
    exact afterKeyword?_eq_some.1 hk
  · cases h

/-- A clause that is there was read behind its word. -/
theorem clause_eq_some {α : Type} {k : Keyword} {body : Reader α} {x : α} {rest : List Token}
    (h : clause k body ts = .ok (some x, rest)) :
    ∃ t behind, ts = t :: behind ∧ t.isKeyword k = true ∧ body behind = .ok (x, rest) := by
  unfold clause at h
  split at h
  · cases h
  · next behind hk =>
    obtain ⟨t, rfl, ht⟩ := afterKeyword?_eq_some.1 hk
    obtain ⟨⟨y, last⟩, hbody, hx⟩ := bind_eq_ok.1 h
    cases hx
    exact ⟨t, behind, rfl, ht, hbody⟩

/-- The places of the select items and of the condition among the tokens of a query. -/
theorem clauses_of_select {q : Select} (h : select src ts = .ok q) :
    ∃ t r₁ u r₂, ts = t :: r₁ ∧ t.isKeyword .select = true ∧
      selectList src r₁ = .ok (q.items, u :: r₂) ∧ u.isKeyword .from = true ∧
      ∀ c ∈ q.condition, ∃ w behind e rest, (w :: behind) <:+ r₂ ∧ w.isKeyword .where = true ∧
        writtenExpression src behind = .ok ((e, c), rest) := by
  obtain ⟨hselect, hitems, hfrom, hbase, hjoins, hcondition, -⟩ := readsClauses_of_select h
  obtain ⟨t, hts, ht⟩ := require_eq_ok hselect
  obtain ⟨u, rfl, hu⟩ := require_eq_ok hfrom
  refine ⟨t, _, u, _, hts, ht, hitems, hu, ?_⟩
  intro c hc
  obtain ⟨⟨e, text⟩, hread, rfl⟩ := Option.map_eq_some_iff.1 hc
  cases hread
  obtain ⟨w, behind, rfl, hw, hbody⟩ := clause_eq_some hcondition
  exact ⟨w, behind, e, _, ((keeps_joinsFrom _).suffix hjoins).trans (stays_tableRef.suffix hbase), hw,
    hbody⟩

end Sql

namespace Select

open Sql

/-- An expression is read in the condition of a query text, and kept as a part of it. -/
def ReadsCondition (query : String) (e : Expr) (c : String) : Prop :=
  ∃ ts before w behind rest, tokenize (stripComments query) = .ok ts ∧ ts = before ++ w :: behind ∧
    w.isKeyword .where = true ∧
    writtenExpression (stripComments query).toList behind = .ok ((e, c), rest)

theorem readsCondition_of_parse {query : String} {q : Select} (h : parse query = .ok q) {c : String}
    (hc : c ∈ q.condition) : ∃ e, ReadsCondition query e c := by
  obtain ⟨ts, hts, hselect⟩ := select_of_parse h
  obtain ⟨t, r₁, u, r₂, rfl, -, hitems, -, hcondition⟩ := clauses_of_select hselect
  obtain ⟨w, behind, e, rest, hsuffix, hw, hread⟩ := hcondition c hc
  have hall := ((hsuffix.trans (List.suffix_cons u r₂)).trans (stays_selectList.suffix hitems)).trans
    (List.suffix_cons t r₁)
  obtain ⟨before, hbefore⟩ := hall
  exact ⟨e, _, before, w, behind, rest, hts, hbefore.symm, hw, hread⟩

/-- The text that is kept spells the expression that was read. -/
theorem ReadsCondition.parse {query c : String} {e : Expr} (h : ReadsCondition query e c) :
    Expr.parse c = .ok e := by
  obtain ⟨ts, before, w, behind, rest, hts, rfl, -, hread⟩ := h
  exact ((keeps_writtenExpression hts).leaves
    ((List.suffix_cons w behind).trans (List.suffix_append before _)) hread).holds

/-- The text that is kept is a part of the query without its comments. -/
theorem ReadsCondition.mem {query c : String} {e : Expr} (h : ReadsCondition query e c) {x : Char}
    (hx : x ∈ c.toList) : x ∈ (stripComments query).toList := by
  obtain ⟨ts, before, w, behind, rest, -, -, -, hread⟩ := h
  obtain ⟨⟨e', last⟩, -, hread⟩ := bind_eq_ok.1 hread
  cases hread
  unfold sourceText at hx
  dsimp only at hx
  split at hx
  · rw [String.toList_ofList] at hx
    exact Text.mem_of_mem_slice hx
  · cases hx

end Select

end TableQuery
