import TableQuery.Proofs.Success
import TableQuery.Sql.Select

/-!
# The clauses of a query

A query is read clause by clause, each from what the clauses in front of it have left. So what is
said of a query that was read is said of its clauses, one by one.
-/

namespace TableQuery

namespace Sql

/-- A query is read from tokens, its clauses one behind the other; it groups no stars. -/
inductive ReadsClauses (src : List Char) (ts : List Token) : Select → Prop where
  | clauses {r₁ r₂ r₃ r₄ r₅ r₆ r₇ r₈ r₉ : List Token} {items : Option (List Item)} {base : TableRef}
      {joins : List (TableRef × JoinMode × List JoinKey)} {condition : Option (Expr × String)}
      {keys : Option (List Item)} {order : Option (List OrderItem)}
      {rows : Option (UInt64 × UInt64)}
      (hselect : require src .select ts = .ok r₁)
      (hitems : selectList src r₁ = .ok (items, r₂))
      (hfrom : require src .from r₂ = .ok r₃)
      (hbase : tableRef src r₃ = .ok (base, r₄))
      (hjoins : joinsFrom src r₄.length r₄ = .ok (joins, r₅))
      (hcondition : clause .where (writtenExpression src) r₅ = .ok (condition, r₆))
      (hkeys : clause .group (fun ts => do elements (groupKey src) (← require src .by ts)) r₆ =
        .ok (keys, r₇))
      (horder : clause .order (fun ts => do elements (orderItem src) (← require src .by ts)) r₇ =
        .ok (order, r₈))
      (hrows : clause .limit (window src) r₈ = .ok (rows, r₉))
      (hstar : keys.isSome → items.isSome) :
      ReadsClauses src ts ⟨items, base, joins, condition.map (·.2), keys, order, rows⟩

theorem readsClauses_of_select {src : List Char} {ts : List Token} {q : Select}
    (h : select src ts = .ok q) : ReadsClauses src ts q := by
  unfold select at h
  obtain ⟨r₁, hselect, h⟩ := bind_eq_ok.1 h
  split at h
  · cases h
  obtain ⟨⟨items, r₂⟩, hitems, h⟩ := bind_eq_ok.1 h
  obtain ⟨r₃, hfrom, h⟩ := bind_eq_ok.1 h
  obtain ⟨⟨base, r₄⟩, hbase, h⟩ := bind_eq_ok.1 h
  obtain ⟨⟨joins, r₅⟩, hjoins, h⟩ := bind_eq_ok.1 h
  obtain ⟨⟨condition, r₆⟩, hcondition, h⟩ := bind_eq_ok.1 h
  obtain ⟨⟨keys, r₇⟩, hkeys, h⟩ := bind_eq_ok.1 h
  dsimp only at h
  split at h
  · cases h
  split at h
  · cases h
  next hstar =>
  obtain ⟨⟨order, r₈⟩, horder, h⟩ := bind_eq_ok.1 h
  obtain ⟨⟨rows, r₉⟩, hrows, h⟩ := bind_eq_ok.1 h
  dsimp only at h
  split at h
  · cases h
  split at h
  · cases h
  cases h
  refine .clauses hselect hitems hfrom hbase hjoins hcondition hkeys horder hrows fun hsome => ?_
  simpa [hsome, Option.isSome_iff_ne_none] using hstar

end Sql

/-- A query text is read without its comments. -/
theorem Select.select_of_parse {query : String} {q : Select} (h : Select.parse query = .ok q) :
    ∃ ts, Sql.tokenize (Sql.stripComments query) = .ok ts ∧
      Sql.select (Sql.stripComments query).toList ts = .ok q := by
  obtain ⟨ts, hts, h⟩ := bind_eq_ok.1 h
  dsimp only at h
  split at h
  · cases h
  · exact ⟨ts, hts, h⟩

end TableQuery
