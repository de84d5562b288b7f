import Mathlib.Data.List.TakeWhile
import TableQuery.Proofs.Reading.Comments
import TableQuery.Proofs.Reading.Conditions
import TableQuery.Proofs.Reading.Pairing
import TableQuery.Proofs.Reading.Words

/-!
# Names in backquotes

A name in backquotes goes through four readers. The one that takes tokens knows backquotes. The one
that removes comments and the one that pairs equal signs do not: they read the name as if it stood
in the open. And the ones that look for key words take a quoted name for a bare one. So the name is
read as the column that it names exactly if it spells no key word and the two readers of characters
leave it as it is, the first of them also where a quote in the name has opened a literal.
-/

namespace TableQuery

/-- The column with which an expression begins, if it begins with one. -/
def Expr.leftmost? : Expr → Option String
  | .column w => some w
  | .binary _ l _ => leftmost? l
  | _ => none

namespace Sql

/-! ## Backquotes that are not closed -/

theorem tokensFrom_unterminated {xs : List Char} (h : '\x60' ∉ xs) (offset : Nat) :
    tokensFrom offset ('\x60' :: xs) = .error (.unterminatedName offset) := by
  have hall : xs.dropWhile (· ≠ '\x60') = [] := by
    rw [List.dropWhile_eq_nil_iff]
    intro x hx
    simpa using fun hquote : x = '\x60' => h (hquote ▸ hx)
  have hscan : scan offset '\x60' xs = .error (.unterminatedName offset) := by
    rw [scan, scanSign?_eq_none (by decide)]
    simp only [hall]
    rfl
  rw [tokensFrom, if_neg (by decide)]
  split
  · next e he =>
    rw [hscan] at he
    cases he
    rfl
  · next s hs =>
    rw [hscan] at hs
    cases hs

theorem Lexes.unterminated {cs xs : List Char} {ls : List Lexeme} (h : Lexes cs ls ('\x60' :: xs))
    (hxs : '\x60' ∉ xs) (offset : Nat) (ts : List Token) : Sql.tokensFrom offset cs ≠ .ok ts := by
  obtain ⟨front, us, -, -, hread⟩ := h.tokensFrom_append offset
  rw [hread, tokensFrom_unterminated hxs]
  exact nofun

/-- Lexemes at the front of a text are the first that it has. -/
theorem Lexes.isPrefix {cs rest : List Char} {ls ms : List Lexeme} (h : Lexes cs ls rest)
    (hms : Lexes cs ms []) : ls <+: ms := by
  obtain ⟨front, ts, -, rfl, hread⟩ := h.tokensFrom_append 0
  obtain ⟨us, hus, rfl⟩ := hms.tokensFrom 0
  rw [hread] at hus
  cases hrest : Sql.tokensFrom (0 + Text.byteLength front) rest with
  | error e =>
    rw [hrest] at hus
    cases hus
  | ok vs =>
    rw [hrest] at hus
    cases hus
    exact ⟨lexemes vs, (lexemes_append ts vs).symm⟩

/-! ## Pairing a text up to a backquote -/

theorem mem_of_mem_pairSignsFrom {st : ConditionState} {cs : List Char} {c : Char}
    (h : c ∈ pairSignsFrom st cs) : c ∈ cs := by
  fun_induction pairSignsFrom st cs <;> grind

theorem pairSignsFrom_of_not_mem {cs : List Char} (h : '=' ∉ cs) (st : ConditionState) :
    pairSignsFrom st cs = cs := by
  fun_induction pairSignsFrom st cs <;> grind

/-- Pairing takes and gives equal signs only. -/
theorem weight_pairSignsFrom (st : ConditionState) (cs : List Char) :
    weight (pairSignsFrom st cs) = weight cs := by
  fun_induction pairSignsFrom st cs <;> grind [weight]

theorem exists_pairSignsFrom_cut (st : ConditionState) (xs : List Char) :
    ∃ st', ∀ ys, pairSignsFrom st (xs ++ '\x60' :: ys) =
      pairSignsFrom st xs ++ '\x60' :: pairSignsFrom st' ys := by
  fun_induction pairSignsFrom st xs with
  | case1 st =>
    cases st with
    | literal q => exact ⟨_, fun ys => by rw [List.nil_append, pairSignsFrom]; rfl⟩
    | plain comparing => exact ⟨.after '\x60', fun ys => by simp [pairSignsFrom]⟩
    | signs kept => exact ⟨.after '\x60', fun ys => by simp [pairSignsFrom]⟩
  | case2 q c cs ih => simpa [pairSignsFrom] using ih
  | case3 comparing c cs hc ih => simpa [pairSignsFrom, hc] using ih
  | case4 c cs hc ih => simpa [pairSignsFrom, hc] using ih
  | case5 comparing c cs hc hcomparing ih => simpa [pairSignsFrom, hc, hcomparing] using ih
  | case6 kept c cs hc ih => simpa [pairSignsFrom, hc] using ih
  | case7 c cs hc ih => simpa [pairSignsFrom, hc] using ih
  | case8 kept c cs hc hkept ih => simpa [pairSignsFrom, hc, hkept] using ih

theorem scanSign?_ne_name (cs : List Char) (w : String) (spelling rest : List Char) :
    scanSign? cs ≠ some ⟨.name w, spelling, rest⟩ := by
  unfold scanSign?
  split <;> exact nofun

/-- A name at the front of a text is paired like a text of its own. -/
theorem lexes_paired_name {cs rest : List Char} {w : String} {ls : List Lexeme}
    (h : Lexes cs (.name w :: ls) rest) :
    ∃ rest', Lexes (pairSignsFrom (.plain false) cs) [.name (pairSigns w)] rest' := by
  generalize hnames : Lexeme.name w :: ls = names at h
  induction h with
  | done => cases hnames
  | @blank c cs _ _ hc _ ih =>
    obtain ⟨rest', hrest'⟩ := ih hnames
    rw [pairSignsFrom_blank (ready_plain _) hc]
    exact ⟨rest', .blank hc hrest'⟩
  | @token l spelling cs _ _ hl _ _ =>
    cases hnames
    cases hl with
    | sign h => exact absurd h (scanSign?_ne_name _ _ _ _)
    | @quoted content cs hcontent =>
      obtain ⟨st', hcut⟩ := exists_pairSignsFrom_cut (.plain false) content
      have hquoted : ∀ x ∈ pairSignsFrom (.plain false) content, x ≠ '\x60' :=
        fun x hx => hcontent x (mem_of_mem_pairSignsFrom hx)
      have hfront : Lexes _ _ (pairSignsFrom st' cs) := .token (.quoted hquoted) (.done _)
      refine ⟨pairSignsFrom st' cs, ?_⟩
      rw [List.cons_append, List.cons_append, pairSignsFrom_cons (ready_plain _) (by decide),
        after_plain (by decide), List.append_assoc, List.singleton_append, hcut, pairSigns,
        String.toList_ofList]
      simpa using hfront
    | @bare c tail rest hc htail hrest =>
      have hname : '=' ∉ c :: tail := by
        intro hmem
        rcases List.mem_cons.1 hmem with rfl | hmem
        · cases hc
        · have := htail _ hmem
          cases h : c == '@' <;> rw [h] at this <;> cases this
      have hsame : pairSigns (String.ofList (c :: tail)) = String.ofList (c :: tail) := by
        rw [pairSigns, String.toList_ofList, pairSignsFrom_of_not_mem hname]
      have hbare : (c :: tail).head? ≠ some '\x60' := by
        rintro ⟨⟩
        cases hc
      obtain ⟨spelling', st', hpaired, hspelled, -⟩ :=
        (Spelled.bare hc htail hrest).pairs hbare (ready_plain _)
      rw [hpaired, hsame]
      exact ⟨_, .token hspelled (.done _)⟩

/-! ## A query of one column under a condition -/

/-- A primary expression is a sum of one operand. -/
theorem Derives.sum {ls : List Lexeme} {e : Expr} (h : Derives .primary ls e) :
    Derives (.chain .sum) ls e :=
  .first (.first (.unsigned h))

theorem derives_column {w : String} (h : Keyword.isReserved w = false) :
    Derives .whole [.name w] (.column w) := by
  have hnot : NotFirst .not [.name w] := by simp [isKeyword_of_not_reserved h]
  exact .first (.first (.positive hnot (.bare (.sum (.column h)))))

theorem derives_condition {w : String} (h : Keyword.isReserved w = false) :
    Derives .whole [.name w, .sign .greater, .number "0"]
      (.binary .gt (.column w) (.literal (.int 0))) := by
  have hnot : NotFirst .not [.name w, .sign .greater, .number "0"] := by
    simp [isKeyword_of_not_reserved h]
  have hcompared : Derives .comparison ([.name w] ++ .sign .greater :: [.number "0"]) _ :=
    .compared (.sum (.column h)) rfl (.sum (.number "0"))
  exact .first (.first (.positive hnot hcompared))

variable {src : List Char} {t u : Token} {rest : List Token} {k : Keyword}

/-- A key word that stands where an alias could is none. -/
theorem label_keyword (hk : u.lexeme.isKeyword k = true) (has : k ≠ .as) (rest : List Token) :
    label src (u :: rest) = .ok (none, u :: rest) := by
  obtain ⟨l, start, stop⟩ := u
  cases l with
  | name a =>
    rw [label, afterKeyword?_ne (isKeyword_eq_false hk has)]
    simp [isReserved_of_isKeyword hk]
  | _ => cases hk

theorem joinWords_keyword (hk : u.lexeme.isKeyword k = true)
    (hjoin : k ∉ [Keyword.left, .right, .inner, .join, .full, .cross]) (rest : List Token) :
    joinWords src (u :: rest) = .ok (none, u :: rest) := by
  have hother {j : Keyword} (hj : j ∈ [Keyword.left, .right, .inner, .join, .full, .cross]) :
      u.lexeme.isKeyword j = false := by
    apply isKeyword_eq_false hk
    rintro rfl
    exact hjoin hj
  simp [joinWords, afterKeyword?, nextIsKeyword, Token.isKeyword, hother]

/-- One column in front of a key word is a whole select list. -/
theorem selectList_column (src : List Char) {n : String} (hn : Keyword.isReserved n = false)
    (ht : t.lexeme = .name n) (hu : u.lexeme.isKeyword .from = true) (rest : List Token) :
    ∃ text, selectList src (t :: u :: rest) =
      .ok (some [.named (.column n) text none], u :: rest) := by
  have hread : expression src ([t] ++ u :: rest) = .ok (.column n, u :: rest) :=
    (derives_column hn).expression [t] (u :: rest) (by simp [ht])
      (.cons (by simp [Lexeme.looseness_of_isKeyword hu, Phrase.looseness]))
  have hstar : after? (.sign .star) (t :: u :: rest) = none := after?_ne (by simp [ht]) _
  have hcomma : after? .comma (u :: rest) = none :=
    after?_ne (by rintro hl; simp [hl, Lexeme.isKeyword] at hu) _
  refine ⟨sourceText src (t :: u :: rest) (u :: rest), ?_⟩
  rw [List.singleton_append] at hread
  have hitem : selectItem src (t :: u :: rest) =
      .ok (some (.named (.column n) (sourceText src (t :: u :: rest) (u :: rest)) none),
        u :: rest) := by
    rw [selectItem, hstar, writtenExpression, hread]
    simp only [ok_bind, pure_bind, label_keyword hu (by decide)]
    rfl
  rw [selectList, elements, List.length_cons, elementsFrom, hitem, ok_bind]
  simp only [hcomma]
  rfl

theorem tableRef_name {w : String} (hw : Keyword.isReserved w = false) (ht : t.lexeme = .name w)
    (hk : u.lexeme.isKeyword k = true) (has : k ≠ .as) (rest : List Token) :
    tableRef src (t :: u :: rest) = .ok (⟨w, w⟩, u :: rest) := by
  simp only [tableRef, ht, hw, label_keyword hk has]
  rfl

/-- The end of a query of which nothing but the condition is left. -/
theorem clause_condition {e : Expr} {ls : List Lexeme} (he : Derives .whole ls e)
    (hu : u.lexeme.isKeyword .where = true) {ts : List Token} (hts : lexemes ts = ls) :
    clause .where (writtenExpression src) (u :: ts) = .ok (some (e, sourceText src ts []), []) := by
  have hread : expression src (ts ++ []) = .ok (e, []) := he.expression ts [] hts (.nil _)
  rw [List.append_nil] at hread
  simp only [clause, afterKeyword?_eq hu, writtenExpression, hread]
  rfl

theorem joinsFrom_keyword (hk : u.lexeme.isKeyword k = true)
    (hjoin : k ∉ [Keyword.left, .right, .inner, .join, .full, .cross]) (n : Nat) (rest : List Token) :
    joinsFrom src n (u :: rest) = .ok ([], u :: rest) := by
  cases n with
  | zero => rfl
  | succ n =>
    rw [joinsFrom, joinWords_keyword hk hjoin]
    rfl

/-- A query of one column from one table under a condition. -/
theorem select_column (src : List Char) {n w : String} {e : Expr} {t₁ t₂ t₃ t₄ t₅ : Token}
    {ts : List Token} (h₁ : t₁.lexeme.isKeyword .select = true) (hn : Keyword.isReserved n = false)
    (h₂ : t₂.lexeme = .name n) (h₃ : t₃.lexeme.isKeyword .from = true)
    (hw : Keyword.isReserved w = false) (h₄ : t₄.lexeme = .name w)
    (h₅ : t₅.lexeme.isKeyword .where = true) (he : Derives .whole (lexemes ts) e) :
    ∃ q text, select src (t₁ :: t₂ :: t₃ :: t₄ :: t₅ :: ts) = .ok q ∧
      q.items = some [.named (.column n) text none] ∧
      q.condition = some (sourceText src ts []) := by
  obtain ⟨text, hitems⟩ := selectList_column src hn h₂ h₃ (t₄ :: t₅ :: ts)
  have hdistinct : nextIsKeyword .distinct (t₂ :: t₃ :: t₄ :: t₅ :: ts) = false := by
    simp [nextIsKeyword, Token.isKeyword, h₂, isKeyword_of_not_reserved hn]
  refine ⟨⟨some [.named (.column n) text none], ⟨w, w⟩, [], some (sourceText src ts []), none, none,
    none⟩, text, ?_, rfl, rfl⟩
  simp only [select, require, afterKeyword?_eq h₁, afterKeyword?_eq h₃, ok_bind, hdistinct, hitems,
    tableRef_name hw h₄ h₅ (by decide), joinsFrom_keyword h₅ (by decide), clause_condition he h₅ rfl]
  rfl

/-! ## What the first name of an expression is -/

/-- An expression that begins with a column, and whose lexemes begin with a name, begins with the
column of that name. -/
theorem Derives.leftmost {p : Phrase} {ls : List Lexeme} {e : Expr} {v w : String}
    (h : Derives p ls e) (he : e.leftmost? = some w) (hls : ls.head? = some (.name v)) :
    v = w ∧ Keyword.isReserved w = false := by
  have front {ls ms : List Lexeme} {p : Phrase} {e : Expr} (h : Derives p ls e)
      (hls : (ls ++ ms).head? = some (.name v)) : ls.head? = some (.name v) := by
    obtain ⟨l, tail, rfl, -⟩ := h.exists_cons
    exact hls
  induction h with
  | number | literal | word | countStar | call | isNull | inList | not => cases he
  | column h =>
    cases he
    cases hls
    exact ⟨rfl, h⟩
  | parens | minus | plus => cases hls
  | unsigned _ ih | first _ ih | bare _ ih | positive _ _ ih => exact ih he hls
  | next hleft _ _ ih _ | compared hleft _ _ ih _ => exact ih he (front hleft hls)

theorem first_of_elements {α : Type} {element : Reader α} {ts rest : List Token} {xs : List α}
    (h : elements element ts = .ok (xs, rest)) :
    ∃ x more behind, element ts = .ok (x, behind) ∧ xs = x :: more := by
  unfold elements at h
  cases hn : ts.length with
  | zero =>
    rw [hn] at h
    obtain ⟨⟨x, behind⟩, hx, h⟩ := bind_eq_ok.1 h
    cases h
    exact ⟨x, [], _, hx, rfl⟩
  | succ n =>
    rw [hn] at h
    obtain ⟨⟨x, behind⟩, hx, h⟩ := bind_eq_ok.1 h
    dsimp only at h
    split at h
    · cases h
      exact ⟨x, [], _, hx, rfl⟩
    · obtain ⟨⟨more, last⟩, -, h⟩ := bind_eq_ok.1 h
      cases h
      exact ⟨x, more, _, hx, rfl⟩

/-- The first item of a select list is read off the front. -/
theorem derives_of_selectList {src : List Char} {ts rest : List Token} {i : Item} {is : List Item}
    (h : selectList src ts = .ok (some (i :: is), rest)) :
    ∃ front behind, ts = front ++ behind ∧ Derives .whole (lexemes front) i.expr := by
  obtain ⟨⟨found, behind⟩, hread, hfound⟩ := bind_eq_ok.1 h
  obtain ⟨first, more, last, hitem, rfl⟩ := first_of_elements hread
  have hfirst : first = some i := by
    dsimp only at hfound
    split at hfound
    · next hall =>
      obtain ⟨j, rfl⟩ := Option.isSome_iff_exists.1 (List.all_eq_true.1 hall first List.mem_cons_self)
      cases hfound
      rfl
    · split at hfound <;> cases hfound
  subst hfirst
  unfold selectItem at hitem
  split at hitem
  · cases hitem
  · obtain ⟨⟨⟨e, text⟩, last⟩, hexpr, hlabel⟩ := bind_eq_ok.1 hitem
    obtain ⟨⟨name, last'⟩, -, hi⟩ := bind_eq_ok.1 hlabel
    cases hi
    obtain ⟨⟨e', last''⟩, hsound, he⟩ := bind_eq_ok.1 hexpr
    cases he
    obtain ⟨front, rfl, hderives⟩ := sound_expression _ _ _ hsound
    exact ⟨front, last, rfl, hderives⟩

end Sql

/-! ## The query of a quoted name -/

open Sql

/-- The query of a column under the condition that it is positive, with its name in backquotes. -/
def quotedQuery (n : String) : String :=
  "SELECT \x60" ++ n ++ "\x60 FROM T WHERE \x60" ++ n ++ "\x60 > 0"

/-- The query of a quoted name selects the column of that name, and the condition that is carried
out compares this column. -/
def ReadsAsColumn (n : String) : Prop :=
  ∃ q i c, Select.parse (quotedQuery n) = .ok q ∧ q.items = some [i] ∧ i.expr = .column n ∧
    q.condition = some c ∧
    Expr.parse (pairSigns c) = .ok (.binary .gt (.column n) (.literal (.int 0)))

variable {n : String}

/-- What is left of the query of a quoted name without its comments: both names, if no comment is
open behind them; one name, if a comment that begins in it ends in the other; or a name that goes on
to the end. -/
inductive Stripped (n : List Char) : List Char → Prop where
  | both {quote : Option Char} :
      Stripped n ("SELECT \x60".toList ++ (stripFrom (.code none) n ++
        ("\x60 FROM T WHERE \x60".toList ++ (stripFrom (.code quote) n ++ "\x60 > 0".toList))))
  | one {name : List Char} (h : '\x60' ∉ name) :
      Stripped n ("SELECT \x60".toList ++ (name ++ "\x60 > 0".toList))
  | second {first name : List Char} (hfirst : '\x60' ∉ first) (h : '\x60' ∉ name) :
      Stripped n ("SELECT \x60".toList ++ (first ++ ("\x60 FROM T WHERE \x60".toList ++ name)))
  | first {name : List Char} (h : '\x60' ∉ name) : Stripped n ("SELECT \x60".toList ++ name)

theorem toList_quotedQuery (n : String) :
    (quotedQuery n).toList = "SELECT \x60".toList ++
      (n.toList ++ ("\x60 FROM T WHERE \x60".toList ++ (n.toList ++ "\x60 > 0".toList))) := by
  simp [quotedQuery]

theorem not_mem_stripFrom {cs : List Char} (h : '\x60' ∉ cs) (s : CommentState) :
    '\x60' ∉ stripFrom s cs := by
  intro hmem
  rcases mem_of_mem_stripFrom hmem with hmem | hblank
  · exact h hmem
  · cases hblank

/-- The reader of comments behind a name: it goes on with the text that follows, or drops it. -/
theorem exists_stripFrom_name (s : CommentState) (name : List Char) {tail : List Char}
    (htail : ∀ x ∈ tail, x ≠ '\n' ∧ x ≠ '-' ∧ x ≠ '/' ∧ x ≠ '*') :
    (∃ quote, ∀ ys, stripFrom s (name ++ '\x60' :: (tail ++ ys)) =
      stripFrom s name ++ '\x60' :: (tail ++ stripFrom (.code quote) ys)) ∨
    ∃ s', (∀ quote, s' ≠ .code quote) ∧ ∀ ys, stripFrom s (name ++ '\x60' :: (tail ++ ys)) =
      stripFrom s name ++ stripFrom s' ys := by
  obtain ⟨s', hcut⟩ := exists_stripFrom_cut s name
  have hquote : ∀ x ∈ '\x60' :: tail, x ≠ '\n' ∧ x ≠ '-' ∧ x ≠ '/' ∧ x ≠ '*' :=
    List.forall_mem_cons.2 ⟨by decide, htail⟩
  by_cases hs : ∃ quote, s' = .code quote
  · obtain ⟨quote, rfl⟩ := hs
    obtain ⟨quote', hcode⟩ :=
      exists_stripFrom_code (fun x hx => ⟨(hquote x hx).2.1, (hquote x hx).2.2.1⟩) quote
    refine .inl ⟨quote', fun ys => ?_⟩
    rw [hcut, ← List.cons_append, hcode, List.cons_append]
  · have hcomment : ∀ quote, s' ≠ .code quote := fun quote h => hs ⟨quote, h⟩
    refine .inr ⟨s', hcomment, fun ys => ?_⟩
    rw [hcut, ← List.cons_append, stripFrom_comment hcomment]
    exact fun x hx => ⟨(hquote x hx).1, (hquote x hx).2.2⟩

theorem stripped_quotedQuery (hn : '\x60' ∉ n.toList) :
    Stripped n.toList (stripFrom (.code none) (quotedQuery n).toList) := by
  have hword : ∀ ys, stripFrom (.code none) ("SELECT \x60".toList ++ ys) =
      "SELECT \x60".toList ++ stripFrom (.code none) ys := fun ys => rfl
  have hmiddle : ∀ x ∈ " FROM T WHERE \x60".toList, x ≠ '\n' ∧ x ≠ '-' ∧ x ≠ '/' ∧ x ≠ '*' :=
    List.forall_iff_forall_mem.1 (by decide)
  have hlast : ∀ x ∈ " > 0".toList, x ≠ '\n' ∧ x ≠ '-' ∧ x ≠ '/' ∧ x ≠ '*' :=
    List.forall_iff_forall_mem.1 (by decide)
  have hclean := not_mem_stripFrom hn
  have hquery : n.toList ++ ("\x60 FROM T WHERE \x60".toList ++ (n.toList ++ "\x60 > 0".toList)) =
      n.toList ++ '\x60' :: (" FROM T WHERE \x60".toList ++
        (n.toList ++ '\x60' :: (" > 0".toList ++ []))) := rfl
  rw [toList_quotedQuery, hword, hquery]
  obtain ⟨quote, hfirst⟩ | ⟨s, hs, hfirst⟩ := exists_stripFrom_name (.code none) n.toList hmiddle
  · rw [hfirst]
    obtain ⟨quote', hsecond⟩ | ⟨s', -, hsecond⟩ := exists_stripFrom_name (.code quote) n.toList hlast
    · rw [hsecond]
      exact .both
    · rw [hsecond, stripFrom, List.append_nil]
      exact .second (hclean _) (hclean _)
  · rw [hfirst]
    obtain ⟨quote', hsecond⟩ | ⟨s', -, hsecond⟩ := exists_stripFrom_name s n.toList hlast
    · rw [hsecond, ← List.append_assoc (stripFrom _ n.toList)]
      refine .one ?_
      simp [hclean]
    · rw [hsecond, stripFrom, List.append_nil]
      refine .first ?_
      simp [hclean]

/-! ## Which lexemes are left -/

theorem Sql.lexes_word {w : String} (hw : isBare w = true) (rest : List Char) :
    Lexes (w.toList ++ ' ' :: rest) [.name w] rest :=
  .token (.of_isBare hw (endsName_of_isBlank (by simp; decide))) (.blank (by decide) (.done rest))

theorem Sql.lexes_quoted {name rest : List Char} (h : '\x60' ∉ name) :
    Lexes ('\x60' :: (name ++ '\x60' :: rest)) [.name (String.ofList name)] rest := by
  have hspelled : Spelled (.name (String.ofList name)) ('\x60' :: name ++ ['\x60']) rest :=
    .quoted fun x hx => by rintro rfl; exact h hx
  simpa using Lexes.token hspelled (.done rest)

theorem Sql.lexes_select {name rest : List Char} (h : '\x60' ∉ name) :
    Lexes ("SELECT \x60".toList ++ (name ++ '\x60' :: rest))
      [.name "SELECT", .name (String.ofList name)] rest :=
  (lexes_word (w := "SELECT") (by decide) _).append (lexes_quoted h)

theorem Sql.lexes_from (rest : List Char) :
    Lexes (" FROM T WHERE \x60".toList ++ rest)
      [.name "FROM", .name "T", .name "WHERE"] ('\x60' :: rest) :=
  .blank (by decide) ((lexes_word (w := "FROM") (by decide) _).append
    ((lexes_word (w := "T") (by decide) _).append (lexes_word (w := "WHERE") (by decide) _)))

theorem Sql.spelled_zero : Spelled (.number "0") ['0'] [] :=
  .whole (by simp) (List.forall_mem_singleton.2 (by decide)) nofun nofun

theorem Sql.lexes_positive : Lexes " > 0".toList [.sign .greater, .number "0"] [] :=
  .blank (by decide) (.sign rfl (.blank (by decide) (.token spelled_zero (.done []))))

/-- The tokens of the query, if its text is left with both names. -/
theorem Sql.lexes_both {first second : List Char} (hfirst : '\x60' ∉ first)
    (hsecond : '\x60' ∉ second) :
    Lexes ("SELECT \x60".toList ++ (first ++
        ("\x60 FROM T WHERE \x60".toList ++ (second ++ "\x60 > 0".toList))))
      [.name "SELECT", .name (String.ofList first), .name "FROM", .name "T", .name "WHERE",
        .name (String.ofList second), .sign .greater, .number "0"] [] := by
  have hname : Lexes ('\x60' :: (second ++ '\x60' :: " > 0".toList)) _ [] :=
    (lexes_quoted hsecond).append lexes_positive
  exact (lexes_select hfirst).append ((lexes_from _).append hname)

/-! ## What the query selects and compares -/

/-- If the query selects a column, its first name is that column, and its condition begins with the
second name. -/
theorem Sql.names_of_select {src : List Char} {ts : List Token} {q : Select} {i : Item}
    {first second c : String} (hts : tokensFrom 0 src = .ok ts)
    (hls : lexemes ts = [.name "SELECT", .name first, .name "FROM", .name "T", .name "WHERE",
      .name second, .sign .greater, .number "0"])
    (hq : select src ts = .ok q) (hitems : q.items = some [i]) (hi : i.expr = .column n)
    (hc : q.condition = some c) :
    first = n ∧ Keyword.isReserved n = false ∧ ∃ ls, Lexes c.toList (.name second :: ls) [] := by
  obtain ⟨t, r₁, u, r₂, rfl, ht, hlist, hu, hcondition⟩ := clauses_of_select hq
  obtain ⟨w, behind, e, rest, hsuffix, hw, hread⟩ := hcondition c hc
  have hall : w :: behind <:+ t :: r₁ :=
    ((hsuffix.trans (List.suffix_cons u r₂)).trans (stays_selectList.suffix hlist)).trans
      (List.suffix_cons t r₁)
  rw [hitems] at hlist
  obtain ⟨front, last, rfl, hfront⟩ := derives_of_selectList hlist
  obtain ⟨l, tail, hl, -⟩ := hfront.exists_cons
  have hname : l = .name first := by
    rw [lexemes_cons, lexemes_append, hl] at hls
    exact (List.cons.inj (List.cons.inj hls).2).1
  obtain ⟨rfl, hreserved⟩ :=
    hfront.leftmost (v := first) (w := n) (by rw [hi]; rfl) (by rw [hl, hname]; rfl)
  refine ⟨rfl, hreserved, ?_⟩
  obtain ⟨⟨e', last'⟩, hexpr, hx⟩ := bind_eq_ok.1 hread
  cases hx
  obtain ⟨front', rfl, hfront'⟩ := sound_expression _ _ _ hexpr
  obtain ⟨l', tail', hl', hbegins⟩ := hfront'.exists_cons
  have hsecond : l' = .name second := by
    have hlexemes : lexemes (w :: (front' ++ rest)) <:+ lexemes (t :: (front ++ last)) :=
      hall.map Token.lexeme
    rw [hls, lexemes_cons, lexemes_append, hl'] at hlexemes
    have hkeyword : w.lexeme.isKeyword .where = true := hw
    simp only [List.suffix_cons_iff, List.cons_append, List.cons.injEq] at hlexemes
    rcases hlexemes with h | h | h | h | h | h | h | h | h
    · exact absurd hkeyword (by rw [h.1]; decide)
    · exact absurd hkeyword (by rw [h.1]; simp [isKeyword_of_not_reserved hreserved])
    · exact absurd hkeyword (by rw [h.1]; decide)
    · exact absurd hkeyword (by rw [h.1]; decide)
    · exact h.2.1
    · rw [h.2.1] at hbegins
      cases hbegins
    · exact absurd hkeyword (by rw [h.1]; decide)
    · exact absurd hkeyword (by rw [h.1]; decide)
    · cases List.suffix_nil.1 h
  obtain ⟨before, hbefore⟩ := hall
  rw [← hbefore, List.append_cons] at hts
  have htext := lexes_sourceText (fun h => hfront'.ne_nil (by rw [h]; rfl)) hts
  rw [hl', hsecond] at htext
  exact ⟨tail', htext⟩

/-- If a text that begins with a name compares a column when its signs are paired, the column is the
paired name. -/
theorem Sql.pairSigns_of_parse {c name : String} {ls : List Lexeme} {e : Expr}
    (hc : Lexes c.toList (.name name :: ls) []) (h : Expr.parse (pairSigns c) = .ok e)
    (he : e.leftmost? = some n) : pairSigns name = n := by
  obtain ⟨rest, hpaired⟩ := lexes_paired_name hc
  obtain ⟨ms, hms, hderives⟩ := Expr.parse_eq_ok_iff.1 h
  rw [pairSigns, String.toList_ofList] at hms
  obtain ⟨more, rfl⟩ := hpaired.isPrefix hms
  exact (hderives.leftmost he rfl).1

/-- A text with one name only has no words `FROM` and `WHERE` behind it. -/
theorem Sql.condition_eq_none_of_one {src : List Char} {ts : List Token} {q : Select} {name : String}
    (hts : tokensFrom 0 src = .ok ts)
    (hls : lexemes ts = [.name "SELECT", .name name, .sign .greater, .number "0"])
    (hq : select src ts = .ok q) : q.condition = none := by
  obtain ⟨t, r₁, u, r₂, rfl, -, hlist, -, hcondition⟩ := clauses_of_select hq
  rw [Option.eq_none_iff_forall_not_mem]
  intro c hc
  obtain ⟨w, behind, e, rest, hsuffix, hw, -⟩ := hcondition c hc
  have hfrom : u :: r₂ <:+ r₁ := stays_selectList.suffix hlist
  have hwords : lexemes (u :: r₂) <:+ .name name :: [.sign .greater, .number "0"] := by
    rw [← (List.cons.inj hls).2]
    exact hfrom.map Token.lexeme
  have hbehind : lexemes r₂ <:+ [.sign .greater, .number "0"] := by
    rcases List.suffix_cons_iff.1 hwords with hsame | hshorter
    · have hsame' : lexemes r₂ = [.sign .greater, .number "0"] := (List.cons.inj hsame).2
      exact hsame' ▸ List.suffix_rfl
    · exact (List.suffix_cons _ _).trans hshorter
  have hmem : w.lexeme ∈ [Lexeme.sign .greater, .number "0"] :=
    hbehind.subset (List.mem_map_of_mem (hsuffix.subset List.mem_cons_self))
  have hkeyword : w.lexeme.isKeyword .where = true := hw
  rcases List.mem_pair.1 hmem with hsign | hnumber
  · rw [hsign] at hkeyword
    cases hkeyword
  · rw [hnumber] at hkeyword
    cases hkeyword

theorem ReadsAsColumn.unchanged (hn : '\x60' ∉ n.toList) (h : ReadsAsColumn n) :
    Keyword.isReserved n = false ∧ stripComments (quotedQuery n) = quotedQuery n ∧
      pairSigns n = n := by
  obtain ⟨q, i, c, hq, hitems, hi, hc, hparse⟩ := h
  obtain ⟨ts, hts, hselect⟩ := Select.select_of_parse hq
  have hstripped := stripped_quotedQuery hn
  have hclean := not_mem_stripFrom hn
  have hsrc : (stripComments (quotedQuery n)).toList = stripFrom (.code none) (quotedQuery n).toList :=
    String.toList_ofList
  change tokensFrom 0 _ = _ at hts
  rw [hsrc] at hts hselect
  generalize hleft : stripFrom (.code none) (quotedQuery n).toList = left at hts hselect hstripped
  cases hstripped with
  | @both quote =>
    have hls := (lexes_of_tokensFrom hts).unique (lexes_both (hclean _) (hclean _))
    obtain ⟨hfirst, hreserved, ls, htext⟩ := names_of_select hts hls hselect hitems hi hc
    have hpaired := pairSigns_of_parse htext hparse rfl
    have hchars := congrArg String.toList hpaired
    rw [pairSigns, String.toList_ofList, String.toList_ofList] at hchars
    have hsecond : stripFrom (.code quote) n.toList = n.toList := by
      apply stripFrom_eq_of_weight
      rw [← weight_pairSignsFrom (.plain false), hchars]
    have hfirst' := congrArg String.toList hfirst
    rw [String.toList_ofList] at hfirst'
    refine ⟨hreserved, ?_, ?_⟩
    · rw [← String.toList_inj, hsrc, hleft, hfirst', hsecond, toList_quotedQuery]
    · rw [hsecond, String.ofList_toList] at hpaired
      exact hpaired
  | @one name hname =>
    have hls := (lexes_of_tokensFrom hts).unique ((lexes_select hname).append lexes_positive)
    rw [condition_eq_none_of_one hts hls hselect] at hc
    cases hc
  | second hfirst hname =>
    exact absurd hts (((lexes_select hfirst).append (lexes_from _)).unterminated hname 0 ts)
  | first hname =>
    exact absurd hts ((lexes_word (w := "SELECT") (by decide) _).unterminated hname 0 ts)

/-! ## The names that are read as columns -/

/-- The condition of the query of a quoted name. -/
def quotedCondition (n : String) : List Char :=
  '\x60' :: n.toList ++ ['\x60'] ++ ' ' :: (['>'] ++ ' ' :: (['0'] ++ []))

/-- The tokens of the condition cover all of it. -/
theorem tokensFrom_quotedCondition (hn : '\x60' ∉ n.toList) (offset : Nat) :
    ∃ t u v, tokensFrom offset (quotedCondition n) = .ok [t, u, v] ∧
      lexemes [t, u, v] = [.name n, .sign .greater, .number "0"] ∧ t.start = offset ∧
      v.stop = offset + Text.byteLength (quotedCondition n) := by
  have hname : Spelled (.name (String.ofList n.toList)) ('\x60' :: n.toList ++ ['\x60'])
      (' ' :: (['>'] ++ ' ' :: (['0'] ++ []))) := .quoted fun x hx => by rintro rfl; exact hn hx
  have hsign : Spelled (.sign .greater) ['>'] (' ' :: (['0'] ++ [])) := .sign rfl
  have hread := hname.tokensFrom offset
  rw [tokensFrom_blank (by decide), hsign.tokensFrom, tokensFrom_blank (by decide),
    spelled_zero.tokensFrom, tokensFrom, map_ok, map_ok, map_ok, String.ofList_toList] at hread
  refine ⟨_, _, _, hread, rfl, rfl, ?_⟩
  simp only [quotedCondition, Text.byteLength_append, Text.byteLength_cons, Text.byteLength_nil]
  omega

theorem lexes_quotedCondition (hn : '\x60' ∉ n.toList) :
    Lexes (quotedCondition n) [.name n, .sign .greater, .number "0"] [] := by
  obtain ⟨t, u, v, hread, hls, -⟩ := tokensFrom_quotedCondition hn 0
  rw [← hls]
  exact lexes_of_tokensFrom hread

/-- The condition keeps its signs if the name does. -/
theorem pairSigns_quotedCondition (h : pairSigns n = n) :
    pairSigns (String.ofList (quotedCondition n)) = String.ofList (quotedCondition n) := by
  have hname := congrArg String.toList h
  rw [pairSigns, String.toList_ofList] at hname
  obtain ⟨st, hcut⟩ := exists_pairSignsFrom_cut (.plain false) n.toList
  have hcondition : quotedCondition n = '\x60' :: (n.toList ++ '\x60' :: " > 0".toList) := by
    simp [quotedCondition]
  rw [pairSigns, String.toList_ofList, hcondition, pairSignsFrom_cons (ready_plain _) (by decide),
    after_plain (by decide), hcut, hname, pairSignsFrom_of_not_mem (by decide)]

theorem sourceText_condition {front body : List Char} {t u v : Token}
    (ht : t.start = Text.byteLength front)
    (hv : v.stop = Text.byteLength front + Text.byteLength body) :
    sourceText (front ++ body) [t, u, v] [] = String.ofList body := by
  have hslice := Text.slice_append front body []
  rw [List.append_nil, ← hv, ← ht] at hslice
  exact congrArg String.ofList hslice

theorem readsAsColumn_of_unchanged (hn : '\x60' ∉ n.toList)
    (hreserved : Keyword.isReserved n = false)
    (hcomments : stripComments (quotedQuery n) = quotedQuery n) (hsigns : pairSigns n = n) :
    ReadsAsColumn n := by
  have hquery : (quotedQuery n).toList = "SELECT \x60".toList ++ (n.toList ++
      '\x60' :: (" FROM T WHERE \x60".toList ++ (quotedCondition n).tail)) := by
    rw [toList_quotedQuery]
    simp [quotedCondition]
  have hfront : Lexes (quotedQuery n).toList
      [.name "SELECT", .name n, .name "FROM", .name "T", .name "WHERE"] (quotedCondition n) := by
    have hselect := (lexes_select hn).append (lexes_from (quotedCondition n).tail)
    rw [String.ofList_toList] at hselect
    rw [hquery]
    exact hselect
  obtain ⟨front, ts, hsrc, hls, hread⟩ := hfront.tokensFrom_append 0
  obtain ⟨t, u, v, hcondition, hwords, hstart, hstop⟩ :=
    tokensFrom_quotedCondition hn (0 + Text.byteLength front)
  rw [hcondition, map_ok] at hread
  rw [Nat.zero_add] at hstart hstop
  obtain ⟨t₁, ts, rfl, h₁, hls⟩ := lexemes_eq_cons_iff.1 hls
  obtain ⟨t₂, ts, rfl, h₂, hls⟩ := lexemes_eq_cons_iff.1 hls
  obtain ⟨t₃, ts, rfl, h₃, hls⟩ := lexemes_eq_cons_iff.1 hls
  obtain ⟨t₄, ts, rfl, h₄, hls⟩ := lexemes_eq_cons_iff.1 hls
  obtain ⟨t₅, ts, rfl, h₅, hls⟩ := lexemes_eq_cons_iff.1 hls
  obtain rfl := lexemes_eq_nil_iff.1 hls
  have hderives := derives_condition hreserved
  have hselect : t₁.lexeme.isKeyword .select = true := by rw [h₁]; decide
  have hfrom : t₃.lexeme.isKeyword .from = true := by rw [h₃]; decide
  have hwhere : t₅.lexeme.isKeyword .where = true := by rw [h₅]; decide
  obtain ⟨q, text, hread', hitems, hc⟩ := select_column (quotedQuery n).toList hselect hreserved h₂
    hfrom (by decide) h₄ hwhere (hwords ▸ hderives)
  rw [hsrc, sourceText_condition hstart hstop] at hc
  refine ⟨q, _, _, ?_, hitems, rfl, hc, ?_⟩
  · have htokens : tokenize (quotedQuery n) = .ok [t₁, t₂, t₃, t₄, t₅, t, u, v] := hread
    rw [Select.parse, hcomments, htokens, ok_bind]
    exact hread'
  · rw [pairSigns_quotedCondition hsigns]
    refine Expr.parse_eq_ok_iff.2 ⟨_, ?_, hderives⟩
    rw [String.toList_ofList]
    exact lexes_quotedCondition hn

/-- A name in backquotes is read as the column that it names, in the select list and in the
condition that is carried out, exactly if it spells no key word, the removal of comments leaves the
query as it is, and the pairing of equal signs leaves the name as it is. -/
theorem readsAsColumn_iff (n : String) (hn : '\x60' ∉ n.toList) :
    ReadsAsColumn n ↔ Keyword.isReserved n = false ∧
      stripComments (quotedQuery n) = quotedQuery n ∧ pairSigns n = n :=
  ⟨fun h => h.unchanged hn, fun ⟨hreserved, hcomments, hsigns⟩ =>
    readsAsColumn_of_unchanged hn hreserved hcomments hsigns⟩

/-- A name with a quote, an equal sign in what the quote opens, and a word that would be a literal.
-/
theorem quoted_literal_reads_as_column :
    '\x60' ∉ "it's = null".toList ∧ ReadsAsColumn "it's = null" := by
  have hn : '\x60' ∉ "it's = null".toList := by decide
  exact ⟨hn, (readsAsColumn_iff _ hn).2
    ⟨by decide +kernel, by decide +kernel, by decide +kernel⟩⟩

/-- The pairing of equal signs, the removal of comments and the search for key words each spoil a
quoted name. -/
theorem quoted_names_misread :
    ("a=b" ≠ "" ∧ '\x60' ∉ "a=b".toList ∧ ¬ReadsAsColumn "a=b") ∧
    ("a--b" ≠ "" ∧ '\x60' ∉ "a--b".toList ∧ ¬ReadsAsColumn "a--b") ∧
    "order" ≠ "" ∧ '\x60' ∉ "order".toList ∧ ¬ReadsAsColumn "order" := by
  have spoilt {n : String} (hn : '\x60' ∉ n.toList)
      (h : ¬ (Keyword.isReserved n = false ∧ stripComments (quotedQuery n) = quotedQuery n ∧
        pairSigns n = n)) : ¬ReadsAsColumn n :=
    fun hreads => h (hreads.unchanged hn)
  refine ⟨⟨by decide, by decide, spoilt (by decide) ?_⟩,
    ⟨by decide, by decide, spoilt (by decide) ?_⟩,
    by decide, by decide, spoilt (by decide) ?_⟩ <;> decide +kernel

end TableQuery
