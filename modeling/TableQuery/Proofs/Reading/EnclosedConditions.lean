import TableQuery.Function.Builtin
import TableQuery.Bound.Basic
import TableQuery.Proofs.Reading.QuotedNames

/-!
# Conditions in parentheses

A condition can be put into parentheses, with more text in front and behind: its characters are
paired and its tokens are taken as before, since a parenthesis ends every token and belongs to none.
Only a name in backquotes may change what is paired behind it, as an apostrophe in it opens a
literal for the reader that pairs. The one condition that reads otherwise in parentheses begins with
the word `SELECT`, which the reader takes for a query inside a query. Without parentheses that word
can only name a function, and none of the built-in ones has this name.
-/

namespace TableQuery

namespace Sql

/-! ## Characters -/

/-- Text without equal signs is not changed by what is in front of it. -/
theorem pairSignsFrom_append {ys : List Char} (h : '=' ∉ ys) (st : ConditionState)
    (xs : List Char) : pairSignsFrom st (xs ++ ys) = pairSignsFrom st xs ++ ys := by
  fun_induction pairSignsFrom st xs with
  | case1 st => exact pairSignsFrom_of_not_mem h st
  | case2 q c cs ih => rw [List.cons_append, pairSignsFrom, ih, List.cons_append]
  | case3 comparing c cs hc ih =>
    rw [List.cons_append, pairSignsFrom, if_pos hc, ih, List.cons_append]
  | case4 c cs hc ih =>
    rw [List.cons_append, pairSignsFrom, if_neg hc, if_pos rfl, ih, List.cons_append]
  | case5 comparing c cs hc hcomparing ih =>
    rw [List.cons_append, pairSignsFrom, if_neg hc, if_neg hcomparing, ih, List.cons_append,
      List.cons_append]
  | case6 kept c cs hc ih =>
    rw [List.cons_append, pairSignsFrom, if_pos hc, ih, List.cons_append]
  | case7 c cs hc ih =>
    rw [List.cons_append, pairSignsFrom, if_neg hc, if_pos rfl, ih, List.cons_append]
  | case8 kept c cs hc hkept ih =>
    rw [List.cons_append, pairSignsFrom, if_neg hc, if_neg hkept, ih]

/-! ## Tokens -/

/-- A bare word in front of a character that cannot be in it. -/
theorem Lexes.word (c : Char) (tail : List Char) (d : Char) {cs rest : List Char}
    {ls : List Lexeme} (hc : beginsName c = true)
    (htail : tail.all (continuesName (c == '@')) = true)
    (hd : continuesName (c == '@') d = false) (hls : Lexes (d :: cs) ls rest) :
    Lexes (c :: tail ++ d :: cs) (.name (String.ofList (c :: tail)) :: ls) rest := by
  refine .token (.bare hc (List.all_eq_true.1 htail) ?_) hls
  rintro _ ⟨⟩
  exact hd

/-! ## Expressions -/

theorem upper_of_isKeyword {w : String} {k : Keyword} (h : (Lexeme.name w).isKeyword k = true) :
    Text.upper w = k.word :=
  eq_of_beq h

/-- No built-in function and no aggregate has the name of a query. -/
theorem ofExpr_select {columns : List String} {scope : Scope} {inAggregate : Bool}
    (args : List Expr) {x : Bound} :
    Bound.ofExpr columns Functions.builtin scope inAggregate (.call "SELECT" args) ≠ .ok x := by
  have hname : Aggregate.ofName? "SELECT" = none := by decide +kernel
  have hfunction : Functions.builtin.get? (Text.upper "SELECT") = none := by decide +kernel
  rw [Bound.ofExpr, hname]
  dsimp only
  rw [Functions.resolve, hfunction]
  intro h
  cases h

/-- What can be bound to columns and built-in functions does not begin with the word `SELECT`. -/
theorem Derives.notFirst_select {p : Phrase} {ls : List Lexeme} {e : Expr} (h : Derives p ls e)
    {columns : List String} {scope : Scope} {inAggregate : Bool} {x : Bound}
    (hx : Bound.ofExpr columns Functions.builtin scope inAggregate e = .ok x) :
    NotFirst .select ls := by
  induction h generalizing x with
  | number | literal | parens | minus | plus => exact notFirst_cons.2 rfl
  | @word w _ h =>
    refine notFirst_cons.2 (eq_false_of_ne_true fun hw => ?_)
    rw [wordLiteral?, Keyword.ofName?_eq_some_iff.2 (upper_of_isKeyword hw).symm] at h
    cases h
  | column h => exact notFirst_cons.2 (isKeyword_of_not_reserved h _)
  | countStar h =>
    refine notFirst_cons.2 (eq_false_of_ne_true fun hw => ?_)
    rw [upper_of_isKeyword hw] at h
    exact absurd h (by decide)
  | call =>
    refine notFirst_cons.2 (eq_false_of_ne_true fun hw => ?_)
    rw [upper_of_isKeyword hw] at hx
    exact ofExpr_select _ hx
  | unsigned _ ih | first _ ih | bare _ ih | positive _ _ ih => exact ih hx
  | next hleft _ _ ih _ | compared hleft _ _ ih _ =>
    obtain ⟨y, hy, -⟩ := bind_eq_ok.1 hx
    exact (ih hy).append hleft.ne_nil _
  | isNull h _ _ _ ih =>
    obtain ⟨y, hy, -⟩ := bind_eq_ok.1 hx
    rw [List.append_assoc]
    exact (ih hy).append h.ne_nil _
  | inList h _ _ _ _ _ ih _ =>
    obtain ⟨y, hy, -⟩ := bind_eq_ok.1 hx
    rw [List.append_assoc]
    exact (ih hy).append h.ne_nil _
  | not hl _ _ => exact notFirst_cons.2 (isKeyword_eq_false hl (by decide))

/-- An expression in parentheses is a primary expression, and so may be negated or tested. -/
theorem Derives.enclosed {ls : List Lexeme} {e : Expr} (h : Derives .whole ls e)
    (hselect : NotFirst .select ls) :
    Derives .whole (.name "NOT" :: .openParen :: ls ++ [.closeParen]) (.not e) ∧
      Derives .whole (.openParen :: ls ++ [.closeParen, .name "IS", .name "NULL"])
        (.isNull e false) := by
  have hparens := (Derives.parens hselect h).sum
  constructor
  · exact .first (.first (.not (by decide) (.positive (by simp; rfl) (.bare hparens))))
  · have hnull : Derives .comparison _ (.isNull e false) :=
      .isNull hparens (l := .name "IS") (m := .name "NULL") (by decide) .absent (by decide)
    rw [List.append_assoc, List.append_assoc] at hnull
    exact .first (.first (.positive (by simp; rfl) hnull))

/-- Two expressions in parentheses may be joined by `AND`. -/
theorem Derives.conjunction {ls ms : List Lexeme} {e f : Expr} (he : Derives .whole ls e)
    (hf : Derives .whole ms f) (hselect : NotFirst .select ls) (hselect' : NotFirst .select ms) :
    Derives .whole ((.openParen :: ls ++ [.closeParen]) ++ .name "AND" ::
      (.openParen :: ms ++ [.closeParen])) (.binary .and e f) := by
  have hleft : Derives .negation _ e :=
    .positive (by simp; rfl) (.bare (Derives.parens hselect he).sum)
  have hright : Derives .negation _ f :=
    .positive (by simp; rfl) (.bare (Derives.parens hselect' hf).sum)
  exact .first (.next (c := .conjunction) (.first hleft) (by decide) hright)

end Sql

namespace Expr

open Sql

theorem not_mem_of_all {xs : List Char}
    (h : xs.all (fun x => decide (x ∉ pairingCharacters)) = true) :
    ∀ x ∈ xs, x ∉ pairingCharacters :=
  fun x hx => of_decide_eq_true (List.all_eq_true.1 h x hx)

theorem pairSigns_enclosed {before after : String} (hne : before.toList ≠ [])
    (hbefore : before.toList.all (fun x => decide (x ∉ pairingCharacters)) = true)
    (hafter : '=' ∉ after.toList) (p : String) : (pairSigns (before ++ p ++ after)).toList =
      before.toList ++ (pairSigns p).toList ++ after.toList := by
  rw [pairSigns, pairSigns, String.toList_ofList, String.toList_ofList, String.toList_append,
    String.toList_append, pairSignsFrom_append hafter,
    pairSignsFrom_run hne (not_mem_of_all hbefore) (ready_plain _)]

/-- A condition in parentheses is read as what is negated or tested for null. -/
theorem parse_enclosed {p : String} {e : Expr} (h : parse (pairSigns p) = .ok e)
    {columns : List String} {scope : Scope} {inAggregate : Bool} {x : Bound}
    (hx : Bound.ofExpr columns Functions.builtin scope inAggregate e = .ok x) :
    parse (pairSigns ("NOT (" ++ p ++ ")")) = .ok (.not e) ∧
      parse (pairSigns ("(" ++ p ++ ") IS NULL")) = .ok (.isNull e false) := by
  obtain ⟨ls, hls, he⟩ := parse_eq_ok_iff.1 h
  obtain ⟨hnot, hnull⟩ := he.enclosed (he.notFirst_select hx)
  constructor
  · refine parse_eq_ok_iff.2 ⟨_, ?_, hnot⟩
    rw [pairSigns_enclosed (by decide) (by decide) (by decide)]
    have hclose : Lexes [')'] [.closeParen] [] := .sign rfl (.done [])
    have hparens : Lexes ('(' :: _) _ [] := .sign rfl ((hls.extend (by decide) []).append hclose)
    have hwhole := Lexes.word 'N' ['O', 'T'] ' ' rfl rfl rfl (.blank rfl hparens)
    simpa using hwhole
  · refine parse_eq_ok_iff.2 ⟨_, ?_, hnull⟩
    rw [pairSigns_enclosed (by decide) (by decide) (by decide)]
    have hnull : Spelled (.name "NULL") ['N', 'U', 'L', 'L'] [] :=
      .bare rfl (List.all_eq_true.1 rfl) nofun
    have his := Lexes.word 'I' ['S'] ' ' rfl rfl rfl (.blank rfl (.token hnull (.done [])))
    have hclose : Lexes (')' :: ' ' :: _) _ [] := .sign rfl (.blank rfl his)
    have hwhole : Lexes ('(' :: _) _ [] := .sign rfl ((hls.extend (by decide) _).append hclose)
    simpa using hwhole

/-- Two conditions in parentheses are paired each by itself, if the first one leaves no literal
open. -/
theorem pairSigns_conjunction {p : String} (hp : openQuote none p.toList = none) (q : String) :
    (pairSigns ("(" ++ p ++ ") AND (" ++ q ++ ")")).toList =
      '(' :: (pairSigns p).toList ++ ')' :: ' ' :: 'A' :: 'N' :: 'D' :: ' ' :: '(' ::
        ((pairSigns q).toList ++ [')']) := by
  have htext : ("(" ++ p ++ ") AND (" ++ q ++ ")").toList =
      ['('] ++ (p.toList ++ ')' :: (" AND (".toList ++ (q.toList ++ [')']))) := by
    simp
  have hclosed : openQuote (ConditionState.plain false).quote? p.toList = none := hp
  have hlast : pairSignsFrom (.plain false) (q.toList ++ [')']) =
      pairSignsFrom (.plain false) q.toList ++ [')'] := pairSignsFrom_append (by decide) _ _
  rw [pairSigns, pairSigns, pairSigns, String.toList_ofList, String.toList_ofList,
    String.toList_ofList, htext,
    pairSignsFrom_run (by decide) (not_mem_of_all (by decide)) (ready_plain _),
    pairSignsFrom_append_closed hclosed (by decide),
    pairSignsFrom_run (by decide) (not_mem_of_all (by decide)) (ready_plain _), hlast]
  rfl

/-- Two conditions in parentheses with `AND` between them are read as the conjunction of what they
are read as themselves. -/
theorem parse_conjunction {p q : String} {e f : Expr} (he : parse (pairSigns p) = .ok e)
    (hf : parse (pairSigns q) = .ok f) (hp : '\x60' ∉ p.toList) {columns columns' : List String}
    {scope scope' : Scope} {inAggregate inAggregate' : Bool} {x y : Bound}
    (hx : Bound.ofExpr columns Functions.builtin scope inAggregate e = .ok x)
    (hy : Bound.ofExpr columns' Functions.builtin scope' inAggregate' f = .ok y) :
    parse (pairSigns ("(" ++ p ++ ") AND (" ++ q ++ ")")) = .ok (.binary .and e f) := by
  obtain ⟨ls, hls, hderives⟩ := parse_eq_ok_iff.1 he
  obtain ⟨ms, hms, hderives'⟩ := parse_eq_ok_iff.1 hf
  have hbare : '\x60' ∉ (pairSigns p).toList := by
    rw [pairSigns, String.toList_ofList]
    exact fun hmem => hp (mem_of_mem_pairSignsFrom hmem)
  have hclosed : openQuote none p.toList = none := by
    have hopen := hls.openQuote hbare
    rw [pairSigns, String.toList_ofList] at hopen
    exact (openQuote_pairSignsFrom (.plain false) p.toList).symm.trans hopen
  refine parse_eq_ok_iff.2 ⟨_, ?_, hderives.conjunction hderives' (hderives.notFirst_select hx)
    (hderives'.notFirst_select hy)⟩
  rw [pairSigns_conjunction hclosed]
  have hclose : Lexes [')'] [.closeParen] [] := .sign rfl (.done [])
  have hright : Lexes ('(' :: _) _ [] := .sign rfl ((hms.extend (by decide) []).append hclose)
  have hand := Lexes.word 'A' ['N', 'D'] ' ' rfl rfl rfl (.blank rfl hright)
  have hbetween : Lexes (')' :: ' ' :: _) _ [] := .sign rfl (.blank rfl hand)
  have hwhole : Lexes ('(' :: _) _ [] := .sign rfl ((hls.extend (by decide) _).append hbetween)
  simpa using hwhole

end Expr

end TableQuery
