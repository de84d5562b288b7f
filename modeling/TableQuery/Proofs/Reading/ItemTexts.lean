import TableQuery.Proofs.Reading.Clauses
import TableQuery.Proofs.Reading.Completeness
import TableQuery.Proofs.Reading.Places
import TableQuery.Proofs.Reading.TokenSpans

/-!
# The texts of items

An item of a query is kept with the part of the query text that spells it. That part, read on its
own, gives the same expression again: it has the lexemes that the expression was read from, and
nothing behind them. All clauses read their items from what the clauses in front of them have left,
so that the items stand in the tokens of the query and nowhere else.
-/

namespace TableQuery

/-- The items that an operator has. -/
def Operator.items : Operator → List Item
  | .project items => items
  | .group keys projection => keys ++ projection
  | .order items => items.map OrderItem.item
  | _ => []

namespace Sql

/-- The text of some tokens has their lexemes, and no more. -/
theorem lexes_sourceText {src : List Char} {before front rest : List Token} (hne : front ≠ [])
    (h : tokensFrom 0 src = .ok (before ++ (front ++ rest))) :
    Lexes (sourceText src (front ++ rest) rest).toList (lexemes front) [] := by
  obtain ⟨part, -, hlexes, htext⟩ := exists_part_of_tokens hne h
  rwa [htext, String.toList_ofList]

/-- What holds of every phrase of a text and what it is cut out as holds of an expression that is
read with its text. -/
theorem keeps_of_phrases {src : List Char} {all : List Token} {P : Expr × String → Prop}
    (h : ∀ before front rest e, front ≠ [] → all = before ++ (front ++ rest) →
      Derives .whole (lexemes front) e → P (e, sourceText src (front ++ rest) rest)) :
    Keeps src all P (writtenExpression src) := by
  rintro ts ⟨before, rfl⟩
  have hstays : Gives src (before ++ ts) (Leaves (fun _ => True) ts) (writtenExpression src ts) :=
    stays_writtenExpression ts (List.suffix_append before ts)
  unfold writtenExpression at hstays ⊢
  cases hread : expression src ts with
  | error e =>
    rwa [hread] at hstays
  | ok found =>
    obtain ⟨e, rest⟩ := found
    obtain ⟨front, rfl, he⟩ := sound_expression _ _ _ hread
    refine ⟨h before front rest e ?_ rfl he, List.suffix_append front rest⟩
    rintro rfl
    exact he.ne_nil rfl

theorem keeps_writtenExpression {src : List Char} {all : List Token} (h : tokensFrom 0 src = .ok all) :
    Keeps src all (fun p => Expr.parse p.2 = .ok p.1) (writtenExpression src) :=
  keeps_of_phrases fun _ _ _ _ hne hall he =>
    Expr.parse_eq_ok_iff.2 ⟨_, lexes_sourceText hne (hall ▸ h), he⟩

end Sql

/-- The operators of a query have its texts, those of the select items once more where it groups. -/
theorem Select.Texts.operators {P : Expr × String → Prop} {q : Select} (hq : q.Texts P) :
    ∀ op ∈ q.operators, (∀ i ∈ op.items, P (i.expr, i.text)) ∧ ∀ c, op = .filter c → ∃ e, P (e, c) := by
  have hkeys : ∀ keys ∈ q.groupKeys, ∀ i ∈ keys, P (i.expr, i.text) := by
    intro keys hmem i hi
    unfold Select.groupKeys at hmem
    split at hmem
    · next hsome =>
      cases hmem
      exact hq.keys i (by rw [hsome]; exact hi)
    · split at hmem
      · cases hmem
        cases hi
      · cases hmem
  intro op hop
  simp only [Select.operators, List.mem_append, List.mem_singleton, List.mem_map,
    Option.mem_toList, Option.map_eq_some_iff] at hop
  rcases hop with (((((rfl | ⟨⟨table, mode, on⟩, -, rfl⟩) | ⟨c, hc, rfl⟩) | ⟨keys, hk, rfl⟩) |
    ⟨items, hi, rfl⟩) | ⟨order, ho, rfl⟩) | ⟨⟨offset, count⟩, -, rfl⟩
  · exact ⟨nofun, nofun⟩
  · exact ⟨nofun, nofun⟩
  · refine ⟨nofun, ?_⟩
    rintro _ ⟨⟩
    exact hq.condition c hc
  · refine ⟨fun i hi => ?_, nofun⟩
    rcases List.mem_append.1 hi with hi | hi
    · exact hkeys keys hk i hi
    · exact hq.items i hi
  · exact ⟨fun i hmem => hq.items i (by rw [hi]; exact hmem), nofun⟩
  · refine ⟨fun i hmem => ?_, nofun⟩
    obtain ⟨o, horder, rfl⟩ := List.mem_map.1 hmem
    exact hq.order o (by rw [ho]; exact horder)
  · exact ⟨nofun, nofun⟩

/-- The text of every item that a query text puts into its operators, the select items of a grouping
included, spells the expression of the item; and what it gives as a filter can be read as an
expression. -/
theorem Select.item_texts_spell {text : String} {q : Select} (h : Select.parse text = .ok q) :
    ∀ op ∈ q.operators, (∀ i ∈ op.items, Expr.parse i.text = .ok i.expr) ∧
      ∀ c, op = .filter c → ∃ e, Expr.parse c = .ok e := by
  obtain ⟨tokens, htokens, hselect⟩ := select_of_parse h
  have htexts := (Sql.keeps_writtenExpression htokens).select.holds hselect
  exact htexts.operators

/-- The same at a query with a comment, a grouping, a condition and an order. -/
theorem Select.sales_item_texts_spell :
    ∃ q, Select.parse
        "SELECT k, SUM(-x) n FROM t /* sales */ WHERE not k IN (3,) GROUP BY k ORDER BY k % 2 DESC" =
          .ok q ∧
      ∀ op ∈ q.operators, (∀ i ∈ op.items, Expr.parse i.text = .ok i.expr) ∧
        ∀ c, op = .filter c → ∃ e, Expr.parse c = .ok e := by
  obtain ⟨q, hq⟩ := exists_eq_ok (x := Select.parse
    "SELECT k, SUM(-x) n FROM t /* sales */ WHERE not k IN (3,) GROUP BY k ORDER BY k % 2 DESC")
    (by decide +kernel)
  exact ⟨q, hq, Select.item_texts_spell hq⟩

end TableQuery
