import TableQuery.Proofs.Reading.Soundness
import TableQuery.Sql.Select

/-!
# Where readers stop

A reader that succeeds leaves an end of the tokens that it was given. One that fails, if it says
where, names the place of the tokens that were left to it then. Every reader hands on only what
another has left, and so a fault in a text is placed where a token of it begins, or behind the last
one.
-/

namespace TableQuery

/-- The expressions of a query and the texts that are kept with them: those of its items, and its
condition. -/
structure Select.Texts (P : Expr × String → Prop) (q : Select) : Prop where
  items : ∀ i ∈ q.items.getD [], P (i.expr, i.text)
  condition : ∀ c ∈ q.condition, ∃ e, P (e, c)
  keys : ∀ i ∈ q.keys.getD [], P (i.expr, i.text)
  order : ∀ o ∈ q.order.getD [], P (o.item.expr, o.item.text)

namespace Sql

/-- A fault with a place is the fault that something was wanted in front of an end of `all`. -/
def SyntaxError.IsAt (src : List Char) (all : List Token) (e : SyntaxError) : Prop :=
  ∀ wanted place, e = .expected wanted place → ∃ rest, rest <:+ all ∧ e = misfit src wanted rest

/-- What is found has the property; if nothing is, the fault is at one of the tokens. -/
def Gives (src : List Char) (all : List Token) {α : Type} (P : α → Prop) :
    Except SyntaxError α → Prop
  | .ok x => P x
  | .error e => e.IsAt src all

/-- What a reader found in front of some tokens has the property, and it has left an end of them. -/
structure Leaves {α : Type} (P : α → Prop) (ts : List Token) (found : α × List Token) : Prop where
  holds : P found.1
  suffix : found.2 <:+ ts

/-- From an end of `all`, a reader finds what has the property and leaves an end of what it was
given, or it fails at one of the tokens. -/
def Keeps (src : List Char) (all : List Token) {α : Type} (P : α → Prop) (read : Reader α) : Prop :=
  ∀ ts, ts <:+ all → Gives src all (Leaves P ts) (read ts)

section

variable {α β : Type} {src : List Char} {all ts us rest : List Token} {P : α → Prop} {Q : β → Prop}

theorem gives_misfit {wanted : Wanted} (h : rest <:+ all) :
    Gives src all P (.error (misfit src wanted rest)) := by
  rintro _ _ ⟨⟩
  exact ⟨rest, h, rfl⟩

namespace Gives

theorem holds {r : Except SyntaxError α} {x : α} (h : Gives src all P r) (hr : r = .ok x) : P x := by
  rwa [hr] at h

theorem isAt {r : Except SyntaxError α} {e : SyntaxError} (h : Gives src all P r) (hr : r = .error e) :
    e.IsAt src all := by
  rwa [hr] at h

theorem bind {r : Except SyntaxError α} {f : α → Except SyntaxError β} (h : Gives src all P r)
    (hf : ∀ x, P x → Gives src all Q (f x)) : Gives src all Q (r >>= f) := by
  cases r with
  | ok x => exact hf x h
  | error e => exact h

theorem mono {P' : α → Prop} {r : Except SyntaxError α} (h : Gives src all P r)
    (hP : ∀ x, P x → P' x) : Gives src all P' r := by
  cases r with
  | ok x => exact hP x h
  | error e => exact h

theorem shorten {r : Except SyntaxError (α × List Token)}
    (h : Gives src all (Leaves P us) r) (hus : us <:+ ts) :
    Gives src all (Leaves P ts) r :=
  h.mono fun _ hx => ⟨hx.holds, hx.suffix.trans hus⟩

end Gives

namespace Keeps

variable {read : Reader α}

/-- A reader may be called behind tokens that are gone already. -/
theorem behind (h : Keeps src all P read) (hus : us <:+ ts) (hts : ts <:+ all) :
    Gives src all (Leaves P ts) (read us) :=
  (h us (hus.trans hts)).shorten hus

/-- Reading goes on with what a reader has left. -/
theorem bind {f : α × List Token → Except SyntaxError (β × List Token)} (h : Keeps src all P read)
    (hus : us <:+ ts) (hts : ts <:+ all)
    (hf : ∀ x rest, P x → rest <:+ all → Gives src all (Leaves Q rest) (f (x, rest))) :
    Gives src all (Leaves Q ts) (read us >>= f) :=
  (h.behind hus hts).bind fun (x, rest) hx =>
    (hf x rest hx.holds (hx.suffix.trans hts)).shorten hx.suffix

/-- The same where nothing is said of what is left in the end. -/
theorem gives {f : α × List Token → Except SyntaxError β} (h : Keeps src all P read) (hts : ts <:+ all)
    (hf : ∀ x rest, P x → rest <:+ all → Gives src all Q (f (x, rest))) :
    Gives src all Q (read ts >>= f) :=
  (h ts hts).bind fun (x, rest) hx => hf x rest hx.holds (hx.suffix.trans hts)

theorem leaves {x : α} (h : Keeps src all P read) (hts : ts <:+ all) (hr : read ts = .ok (x, rest)) :
    Leaves P ts (x, rest) :=
  (h ts hts).holds hr

theorem suffix {x : α} (h : Keeps src ts P read) (hr : read ts = .ok (x, rest)) : rest <:+ ts :=
  (h.leaves List.suffix_rfl hr).suffix

end Keeps

/-! ## Tokens in front -/

theorem suffix_of_after? {l : Lexeme} (h : after? l ts = some rest) : rest <:+ ts := by
  obtain ⟨t, rfl, -⟩ := after?_eq_some.1 h
  exact List.suffix_cons t rest

theorem suffix_of_afterKeyword? {k : Keyword} (h : afterKeyword? k ts = some rest) :
    rest <:+ ts := by
  obtain ⟨t, rfl, -⟩ := afterKeyword?_eq_some.1 h
  exact List.suffix_cons t rest

theorem suffix_of_afterKeyword?_getD (k : Keyword) (ts : List Token) :
    (afterKeyword? k ts).getD ts <:+ ts := by
  cases h : afterKeyword? k ts with
  | none => exact List.suffix_rfl
  | some rest => exact suffix_of_afterKeyword? h

theorem gives_require (k : Keyword) (hts : ts <:+ all) :
    Gives src all (· <:+ ts) (require src k ts) := by
  unfold require
  split
  · exact suffix_of_afterKeyword? ‹_›
  · exact gives_misfit hts

end

/-! ## Expressions -/

section

variable {src : List Char} {all ts : List Token}

/-- A reader of which nothing more is said than where it stops. -/
abbrev Stays (src : List Char) (all : List Token) {α : Type} (read : Reader α) : Prop :=
  Keeps src all (fun _ => True) read

namespace Stays

variable {expr operand sum : Reader Expr}

theorem chainFrom {op? : Lexeme → Option BinaryOp} (h : Stays src all operand) (n : Nat) (left : Expr) :
    Stays src all (Sql.chainFrom op? operand n left) := by
  intro ts hts
  fun_induction Sql.chainFrom op? operand n left ts with
  | case1 | case2 | case3 => exact ⟨trivial, List.suffix_rfl⟩
  | case4 n left t ts op hop ih =>
    exact h.bind (List.suffix_cons t ts) hts fun right rest _ hrest => ih right rest hrest

theorem chain (op? : Lexeme → Option BinaryOp) (h : Stays src all operand) :
    Stays src all (Sql.chain op? operand) :=
  fun _ hts => h.bind List.suffix_rfl hts fun left rest _ hrest =>
    h.chainFrom rest.length left rest hrest

theorem itemsFrom (h : Stays src all expr) (wanted : Wanted) (trailing : Bool) (n : Nat) :
    Stays src all (Sql.itemsFrom src wanted trailing expr n) := by
  induction n with
  | zero => exact fun ts hts => gives_misfit hts
  | succ n ih =>
    intro ts hts
    refine h.bind List.suffix_rfl hts fun e rest _ hrest => ?_
    dsimp only
    split
    · next behind _ hcomma =>
      have hbehind := suffix_of_after? hcomma
      split
      · next hclose => exact ⟨trivial, (suffix_of_after? hclose).trans hbehind⟩
      · exact ih.bind hbehind hrest fun _ _ _ _ => ⟨trivial, List.suffix_rfl⟩
    · next hclose => exact ⟨trivial, suffix_of_after? hclose⟩
    · exact gives_misfit hrest

theorem items (h : Stays src all expr) (wanted : Wanted) (trailing : Bool) :
    Stays src all (Sql.items src wanted trailing expr) := by
  intro ts hts
  unfold Sql.items
  split
  · exact ⟨trivial, suffix_of_after? ‹_›⟩
  · exact h.itemsFrom wanted trailing ts.length ts hts

theorem callBody (h : Stays src all expr) (function : String) :
    Stays src all (Sql.callBody src function expr) := by
  intro ts hts
  unfold Sql.callBody
  split
  · exact nofun
  split
  · exact nofun
  split
  · next rest hstar =>
    have hrest := suffix_of_after? hstar
    split
    · exact gives_misfit (hrest.trans hts)
    · split
      · exact nofun
      · exact ⟨trivial, (suffix_of_after? ‹_›).trans hrest⟩
  · exact (h.items _ _).bind List.suffix_rfl hts fun _ _ _ _ => ⟨trivial, List.suffix_rfl⟩

theorem primary (h : Stays src all expr) : Stays src all (Sql.primary src expr) := by
  intro ts hts
  unfold Sql.primary
  split
  · exact gives_misfit hts
  · next t rest =>
    have hrest := List.suffix_cons t rest
    split
    · exact ⟨trivial, hrest⟩
    · exact ⟨trivial, hrest⟩
    · unfold named
      split
      · exact ⟨trivial, hrest⟩
      split
      · next hopen =>
        exact (h.callBody _).behind ((suffix_of_after? hopen).trans hrest) hts
      · split
        · exact gives_misfit hts
        · exact ⟨trivial, hrest⟩
    · split
      · exact nofun
      · refine h.bind hrest hts fun e behind _ hbehind => ?_
        dsimp only
        split
        · exact ⟨trivial, suffix_of_after? ‹_›⟩
        · exact gives_misfit hbehind
    · exact gives_misfit hts

theorem signed (h : Stays src all operand) : Stays src all (Sql.signed operand) := by
  intro ts hts
  induction ts with
  | nil => exact h [] hts
  | cons t ts ih =>
    have htail := List.suffix_cons t ts
    have hsigned := ih (htail.trans hts)
    unfold Sql.signed
    split
    · refine Gives.shorten ?_ htail
      exact hsigned.bind fun _ hx => ⟨trivial, hx.suffix⟩
    · exact hsigned.shorten htail
    · exact h _ hts

theorem negation (h : Stays src all operand) : Stays src all (Sql.negation operand) := by
  intro ts hts
  induction ts with
  | nil => exact h [] hts
  | cons t ts ih =>
    have htail := List.suffix_cons t ts
    unfold Sql.negation
    split
    · refine Gives.shorten ?_ htail
      exact (ih (htail.trans hts)).bind fun _ hx => ⟨trivial, hx.suffix⟩
    · exact h _ hts

theorem memberList (h : Stays src all expr) : Stays src all (Sql.memberList src expr) := by
  intro ts hts
  unfold Sql.memberList
  split
  · exact gives_misfit hts
  next hopen =>
  split
  · exact nofun
  · exact (h.items _ _).behind (suffix_of_after? hopen) hts

end Stays

theorem stays_nullTest (left : Expr) : Stays src all (nullTest src left) := by
  intro ts hts
  have hrest : (if nextIsKeyword .not ts then ts.drop 1 else ts) <:+ ts := by
    split
    · exact List.drop_suffix 1 ts
    · exact List.suffix_rfl
  unfold nullTest
  dsimp only
  split
  · next hnull => exact ⟨trivial, (suffix_of_afterKeyword? hnull).trans hrest⟩
  · exact gives_misfit (hrest.trans hts)

theorem suffix_of_membership? {negated : Bool} {rest : List Token}
    (h : membership? ts = some (negated, rest)) : rest <:+ ts := by
  obtain ⟨front, t, rfl, -⟩ := membership?_eq_some h
  exact (List.suffix_cons t rest).trans (List.suffix_append front _)

theorem Stays.comparison {expr sum : Reader Expr} (h : Stays src all expr) (hsum : Stays src all sum) :
    Stays src all (Sql.comparison src expr sum) := by
  intro ts hts
  refine hsum.bind List.suffix_rfl hts fun left rest _ hrest => ?_
  dsimp only
  split
  · next his => exact (stays_nullTest left).behind (suffix_of_afterKeyword? his) hrest
  · next hmember =>
    exact h.memberList.bind (suffix_of_membership? hmember) hrest fun _ _ _ _ =>
      ⟨trivial, List.suffix_rfl⟩
  · split
    · exact ⟨trivial, List.suffix_rfl⟩
    · split
      · exact ⟨trivial, List.suffix_rfl⟩
      · exact hsum.bind (List.suffix_cons _ _) hrest fun _ _ _ _ => ⟨trivial, List.suffix_rfl⟩

theorem stays_exprWithin (n : Nat) : Stays src all (exprWithin src n) := by
  induction n with
  | zero => exact fun ts hts => gives_misfit hts
  | succ n ih =>
    have sum := ((ih.primary.signed).chain productOp?).chain sumOp?
    exact (((ih.comparison sum).negation).chain andOp?).chain orOp?

theorem stays_expression : Stays src all (expression src) :=
  fun ts hts => stays_exprWithin ts.length ts hts

end

/-! ## Clauses -/

section

variable {α : Type} {src : List Char} {all ts : List Token} {P : α → Prop} {read : Reader α}

namespace Keeps

theorem elementsFrom (h : Keeps src all P read) (n : Nat) :
    Keeps src all (fun xs => ∀ x ∈ xs, P x) (elementsFrom read n) := by
  induction n with
  | zero =>
    exact fun ts hts => h.bind List.suffix_rfl hts fun x rest hx _ => ⟨by simpa using hx, List.suffix_rfl⟩
  | succ n ih =>
    intro ts hts
    refine h.bind List.suffix_rfl hts fun x rest hx hrest => ?_
    dsimp only
    split
    · exact ⟨by simpa using hx, List.suffix_rfl⟩
    · next hcomma =>
      exact ih.bind (suffix_of_after? hcomma) hrest fun xs last hxs _ =>
        ⟨List.forall_mem_cons.2 ⟨hx, hxs⟩, List.suffix_rfl⟩

theorem elements (h : Keeps src all P read) :
    Keeps src all (fun xs => ∀ x ∈ xs, P x) (elements read) :=
  fun ts => h.elementsFrom ts.length ts

theorem clause (h : Keeps src all P read) (k : Keyword) :
    Keeps src all (fun x? => ∀ x ∈ x?, P x) (clause k read) := by
  intro ts hts
  unfold Sql.clause
  split
  · exact ⟨nofun, List.suffix_rfl⟩
  · next hk =>
    exact h.bind (suffix_of_afterKeyword? hk) hts fun x rest hx _ => ⟨by simpa using hx, List.suffix_rfl⟩

/-- A key word in front of what a reader is given. -/
theorem require (h : Keeps src all P read) (k : Keyword) :
    Keeps src all P (fun ts => do read (← Sql.require src k ts)) :=
  fun _ hts => (gives_require k hts).bind fun _ hrest => h.behind hrest hts

end Keeps

end

section

variable {src : List Char} {all : List Token}

theorem stays_label : Stays src all (label src) := by
  intro ts hts
  unfold label
  split
  · next rest hk =>
    have hrest := suffix_of_afterKeyword? hk
    split
    · exact ⟨trivial, (List.suffix_cons _ _).trans hrest⟩
    · exact ⟨trivial, (List.suffix_cons _ _).trans hrest⟩
    · exact gives_misfit (hrest.trans hts)
  · split
    · split
      · exact ⟨trivial, List.suffix_rfl⟩
      · exact ⟨trivial, List.suffix_cons _ _⟩
    · exact ⟨trivial, List.suffix_rfl⟩

theorem stays_tableRef : Stays src all (tableRef src) := by
  intro ts hts
  unfold tableRef
  split
  · exact gives_misfit hts
  next t rest =>
  split
  · exact nofun
  · split
    · exact gives_misfit hts
    · exact stays_label.bind (List.suffix_cons t rest) hts fun _ _ _ _ => ⟨trivial, List.suffix_rfl⟩
  · exact gives_misfit hts

theorem stays_joinWords : Stays src all (joinWords src) := by
  intro ts hts
  have worded {k : Keyword} {behind : List Token} (mode : JoinMode)
      (hk : afterKeyword? k ts = some behind) :
      Gives src all (Leaves (fun _ => True) ts) (do
        let rest ← require src .join ((afterKeyword? .outer behind).getD behind)
        return (some mode, rest)) := by
    have hbehind := (suffix_of_afterKeyword?_getD .outer behind).trans (suffix_of_afterKeyword? hk)
    exact (gives_require .join (hbehind.trans hts)).bind fun _ hrest => ⟨trivial, hrest.trans hbehind⟩
  unfold joinWords
  dsimp only
  split
  · next hk => exact worded .left hk
  · next hk => exact worded .right hk
  · next hk => exact worded .inner hk
  · split
    · exact ⟨trivial, suffix_of_afterKeyword? ‹_›⟩
    · split
      · exact nofun
      · exact ⟨trivial, List.suffix_rfl⟩

/-- A condition that can be joined on compares columns; one that cannot is shown as it was read. -/
theorem gives_joinKeys (e : Expr) : Gives src all (· ≠ []) (joinKeys e) := by
  fun_induction joinKeys e with
  | case1 l r ihl ihr =>
    exact ihl.bind fun left hleft => ihr.bind fun right _ => List.append_ne_nil_of_left_ne_nil hleft right
  | case2 a b => exact List.cons_ne_nil _ _
  | case3 => exact nofun
  | case4 => exact nofun

/-- Every join that is read has keys. -/
theorem keeps_joinsFrom (n : Nat) :
    Keeps src all (fun joins => ∀ j ∈ joins, j.2.2 ≠ []) (joinsFrom src n) := by
  induction n with
  | zero => exact fun ts hts => ⟨nofun, List.suffix_rfl⟩
  | succ n ih =>
    intro ts hts
    refine stays_joinWords.bind List.suffix_rfl hts fun mode? r₁ _ h₁ => ?_
    cases mode? with
    | none => exact ⟨nofun, List.suffix_rfl⟩
    | some mode =>
      refine stays_tableRef.bind List.suffix_rfl h₁ fun table r₂ _ h₂ => ?_
      refine (gives_require .on h₂).bind fun r₃ h₃ => ?_
      refine stays_expression.bind h₃ h₂ fun condition r₄ _ h₄ => ?_
      refine (gives_joinKeys condition).bind fun on hon => ?_
      exact ih.bind List.suffix_rfl h₄ fun joins _ hjoins _ =>
        ⟨List.forall_mem_cons.2 ⟨hon, hjoins⟩, List.suffix_rfl⟩

theorem stays_rowCount : Stays src all (rowCount src) := by
  intro ts hts
  unfold rowCount
  split
  · dsimp only
    split
    · exact gives_misfit hts
    · split
      · exact ⟨trivial, List.suffix_cons _ _⟩
      · exact nofun
  · exact gives_misfit hts

theorem stays_window : Stays src all (window src) := by
  intro ts hts
  refine stays_rowCount.bind List.suffix_rfl hts fun first rest _ hrest => ?_
  dsimp only
  split
  · next hcomma =>
    exact stays_rowCount.bind (suffix_of_after? hcomma) hrest fun _ _ _ _ => ⟨trivial, List.suffix_rfl⟩
  · next hoffset =>
    exact stays_rowCount.bind (suffix_of_afterKeyword? hoffset) hrest fun _ _ _ _ =>
      ⟨trivial, List.suffix_rfl⟩
  · exact ⟨trivial, List.suffix_rfl⟩

end

/-! ## Queries -/

theorem exists_of_mem_getD {α : Type} {found : Option (List α)} {x : α} (h : x ∈ found.getD []) :
    ∃ xs ∈ found, x ∈ xs := by
  cases found with
  | none => cases h
  | some xs => exact ⟨xs, rfl, h⟩

theorem stays_writtenExpression {src : List Char} {all : List Token} :
    Stays src all (writtenExpression src) :=
  fun _ hts => stays_expression.bind List.suffix_rfl hts fun _ _ _ _ => ⟨trivial, List.suffix_rfl⟩

section

variable {src : List Char} {all : List Token} {P : Expr × String → Prop}
  (h : Keeps src all P (writtenExpression src))

include h

theorem Keeps.selectItem : Keeps src all (fun i? => ∀ i ∈ i?, P (i.expr, i.text)) (selectItem src) := by
  intro ts hts
  unfold Sql.selectItem
  split
  · exact ⟨nofun, suffix_of_after? ‹_›⟩
  · refine h.bind List.suffix_rfl hts fun (e, text) rest he hrest => ?_
    refine stays_label.bind List.suffix_rfl hrest fun name last _ _ => ⟨?_, List.suffix_rfl⟩
    rintro _ ⟨⟩
    exact he

theorem Keeps.selectList :
    Keeps src all (fun items => ∀ i ∈ items.getD [], P (i.expr, i.text)) (selectList src) := by
  intro ts hts
  refine h.selectItem.elements.bind List.suffix_rfl hts fun found rest hfound _ => ?_
  dsimp only
  split
  · refine ⟨fun i hi => ?_, List.suffix_rfl⟩
    obtain ⟨i?, hmem, hi?⟩ := List.mem_filterMap.1 hi
    exact hfound i? hmem i hi?
  · split
    · exact ⟨nofun, List.suffix_rfl⟩
    · exact nofun

theorem Keeps.groupKey : Keeps src all (fun i => P (i.expr, i.text)) (groupKey src) :=
  fun _ hts => h.bind List.suffix_rfl hts fun _ _ he _ => ⟨he, List.suffix_rfl⟩

theorem Keeps.orderItem : Keeps src all (fun o => P (o.item.expr, o.item.text)) (orderItem src) := by
  intro ts hts
  refine h.groupKey.bind List.suffix_rfl hts fun item rest hitem _ => ?_
  dsimp only
  split
  · exact ⟨hitem, suffix_of_afterKeyword? ‹_›⟩
  · exact ⟨hitem, suffix_of_afterKeyword?_getD _ _⟩

/-- What holds wherever an expression is read with its text holds of the texts of a query, and a
query fails where a reader does. -/
theorem Keeps.select : Gives src all (Select.Texts P) (select src all) := by
  unfold Sql.select
  refine (gives_require .select List.suffix_rfl).bind fun r₁ h₁ => ?_
  dsimp only
  split
  · exact nofun
  refine h.selectList.gives h₁ fun items r₂ hitems h₂ => ?_
  refine (gives_require .from h₂).bind fun r₃ h₃ => ?_
  refine stays_tableRef.gives (h₃.trans h₂) fun base r₄ _ h₄ => ?_
  refine (keeps_joinsFrom r₄.length).gives h₄ fun joins r₅ _ h₅ => ?_
  refine (h.clause .where).gives h₅ fun condition r₆ hcondition h₆ => ?_
  refine ((h.groupKey.elements.require .by).clause .group).gives h₆ fun keys r₇ hkeys h₇ => ?_
  dsimp only
  split
  · exact nofun
  split
  · exact nofun
  refine ((h.orderItem.elements.require .by).clause .order).gives h₇ fun order r₈ horder h₈ => ?_
  refine (stays_window.clause .limit).gives h₈ fun rows r₉ _ h₉ => ?_
  dsimp only
  split
  · exact nofun
  split
  · exact gives_misfit ((List.dropWhile_suffix _).trans h₉)
  refine ⟨hitems, fun c hc => ?_, fun i hi => ?_, fun o ho => ?_⟩
  · obtain ⟨⟨e, text⟩, hmem, rfl⟩ := Option.map_eq_some_iff.1 hc
    exact ⟨e, hcondition _ hmem⟩
  · obtain ⟨keys, hmem, hi⟩ := exists_of_mem_getD hi
    exact hkeys keys hmem i hi
  · obtain ⟨order, hmem, ho⟩ := exists_of_mem_getD ho
    exact horder order hmem o ho

end

theorem stays_selectList {src : List Char} {all : List Token} : Stays src all (selectList src) := by
  intro ts hts
  have h : Stays src all (writtenExpression src) := stays_writtenExpression
  exact (h.selectList ts hts).mono fun _ hx => ⟨trivial, hx.suffix⟩

end Sql

end TableQuery
