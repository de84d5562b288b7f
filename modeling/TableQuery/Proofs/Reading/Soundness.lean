import TableQuery.Proofs.Reading.Grammar

/-!
# What is read is derived

Each reader takes a phrase of its level off the front of the tokens, and the lexemes of that phrase
derive the expression that it gives. Only the reader for what stands in parentheses is asked to do
so already; it descends by one level of parentheses, and so the induction is on their number.
-/

namespace TableQuery.Sql

/-! ## Tokens in front -/

theorem after?_eq_some {l : Lexeme} {ts rest : List Token} :
    after? l ts = some rest ↔ ∃ t, ts = t :: rest ∧ t.lexeme = l := by
  cases ts with
  | nil => simp [after?]
  | cons t ts => by_cases h : t.lexeme = l <;> simp [after?, h]

theorem afterKeyword?_eq_some {k : Keyword} {ts rest : List Token} :
    afterKeyword? k ts = some rest ↔ ∃ t, ts = t :: rest ∧ t.lexeme.isKeyword k = true := by
  cases ts with
  | nil => simp [afterKeyword?]
  | cons t ts => by_cases h : t.isKeyword k <;> simp_all [afterKeyword?, Token.isKeyword]

theorem nextIsKeyword_eq_false {k : Keyword} {ts : List Token} :
    nextIsKeyword k ts = false ↔ NotFirst k (lexemes ts) := by
  cases ts <;> simp [nextIsKeyword, NotFirst, Token.isKeyword]

@[simp]
theorem listed_singleton (ls : List Lexeme) (trailing : Bool) :
    listed [ls] trailing = ls ++ ((if trailing then [.comma] else []) ++ [.closeParen]) := by
  simp [listed]

@[simp]
theorem listed_cons_cons (ls ms : List Lexeme) (parts : List (List Lexeme)) (trailing : Bool) :
    listed (ls :: ms :: parts) trailing = ls ++ .comma :: listed (ms :: parts) trailing := by
  simp [listed, List.intercalate_cons_cons]

/-- The reader of a level, given the one for what stands in parentheses. -/
def levelReader (src : List Char) (expr : Reader Expr) : Phrase → Reader Expr :=
  let operand := signed (primary src expr)
  let sum := chain sumOp? (chain productOp? operand)
  let test := negation (comparison src expr sum)
  fun
  | .primary => primary src expr
  | .signed => operand
  | .chain .product => chain productOp? operand
  | .chain .sum => sum
  | .comparison => comparison src expr sum
  | .negation => test
  | .chain .conjunction => chain andOp? test
  | .chain .disjunction => chain orOp? (chain andOp? test)

theorem levelReader_chain (src : List Char) (expr : Reader Expr) (c : Chained) :
    levelReader src expr (.chain c) = chain c.op? (levelReader src expr c.operand) := by
  cases c <;> rfl

/-! ## What is read is derived -/

/-- A reader takes only phrases of a level off the front. -/
def Sound (read : Reader Expr) (p : Phrase) : Prop :=
  ∀ ts e rest, read ts = .ok (e, rest) →
    ∃ front, ts = front ++ rest ∧ Derives p (lexemes front) e

section

variable {src : List Char} {expr : Reader Expr} {ts rest : List Token} {e : Expr}

theorem sound_chainFrom {c : Chained} {operand : Reader Expr} (h : Sound operand c.operand) {n : Nat}
    {left : Expr} {ls : List Lexeme} (hleft : Derives (.chain c) ls left)
    (hr : chainFrom c.op? operand n left ts = .ok (e, rest)) :
    ∃ front, ts = front ++ rest ∧ Derives (.chain c) (ls ++ lexemes front) e := by
  fun_induction chainFrom c.op? operand n left ts generalizing ls with
  | case1 | case2 | case3 =>
    cases hr
    exact ⟨[], rfl, by simpa using hleft⟩
  | case4 n left t ts op hop ih =>
    obtain ⟨⟨right, behind⟩, hread, hbehind⟩ := bind_eq_ok.1 hr
    obtain ⟨mid, rfl, hright⟩ := h _ _ _ hread
    obtain ⟨front, rfl, hall⟩ := ih right behind (.next hleft hop hright) hbehind
    exact ⟨t :: mid ++ front, by simp, by simpa using hall⟩

theorem sound_chain {c : Chained} {operand : Reader Expr} (h : Sound operand c.operand) :
    Sound (chain c.op? operand) (.chain c) := by
  intro ts e rest hr
  obtain ⟨⟨left, behind⟩, hread, hbehind⟩ := bind_eq_ok.1 hr
  obtain ⟨mid, rfl, hleft⟩ := h _ _ _ hread
  obtain ⟨front, rfl, hall⟩ := sound_chainFrom h (.first hleft) hbehind
  exact ⟨mid ++ front, by simp, by simpa using hall⟩

theorem sound_itemsFrom (h : Sound expr .whole) {wanted : Wanted} {trailing : Bool} {n : Nat}
    {es : List Expr} (hr : itemsFrom src wanted trailing expr n ts = .ok (es, rest)) :
    ∃ front parts comma, ts = front ++ rest ∧ lexemes front = listed (parts.map Prod.fst) comma ∧
      es = parts.map Prod.snd ∧ (comma = true → trailing = true) ∧ parts ≠ [] ∧
      ∀ part ∈ parts, Derives .whole part.1 part.2 := by
  induction n generalizing ts es with
  | zero => cases hr
  | succ n ih =>
    obtain ⟨⟨e, behind⟩, hread, hbehind⟩ := bind_eq_ok.1 hr
    obtain ⟨mid, rfl, he⟩ := h _ _ _ hread
    dsimp only at hbehind
    split at hbehind
    · next more _ hcomma =>
      obtain ⟨t, rfl, ht⟩ := after?_eq_some.1 hcomma
      split at hbehind
      · next last hclose =>
        obtain ⟨u, rfl, hu⟩ := after?_eq_some.1 hclose
        cases hbehind
        exact ⟨mid ++ [t, u], [(lexemes mid, e)], true, by simp, by simp [ht, hu], rfl,
          fun _ => rfl, by simp, by simpa using he⟩
      · obtain ⟨⟨es', rest'⟩, hmore, hes⟩ := bind_eq_ok.1 hbehind
        cases hes
        obtain ⟨front, parts, comma, rfl, hfront, rfl, htrailing, hne, hparts⟩ := ih hmore
        obtain ⟨part, parts, rfl⟩ := List.exists_cons_of_ne_nil hne
        exact ⟨mid ++ t :: front, (lexemes mid, e) :: part :: parts, comma, by simp,
          by simp [ht, hfront], rfl, htrailing, by simp, List.forall_mem_cons.2 ⟨he, hparts⟩⟩
    · next last _ hclose =>
      obtain ⟨u, rfl, hu⟩ := after?_eq_some.1 hclose
      cases hbehind
      exact ⟨mid ++ [u], [(lexemes mid, e)], false, by simp, by simp [hu], rfl, nofun, by simp,
        by simpa using he⟩
    · cases hbehind

theorem sound_items (h : Sound expr .whole) {wanted : Wanted} {trailing : Bool}
    {es : List Expr} (hr : items src wanted trailing expr ts = .ok (es, rest)) :
    ∃ front parts comma, ts = front ++ rest ∧ lexemes front = listed (parts.map Prod.fst) comma ∧
      es = parts.map Prod.snd ∧ (comma = true → trailing = true ∧ parts ≠ []) ∧
      ∀ part ∈ parts, Derives .whole part.1 part.2 := by
  unfold items at hr
  split at hr
  · next last hclose =>
    obtain ⟨u, rfl, hu⟩ := after?_eq_some.1 hclose
    cases hr
    exact ⟨[u], [], false, rfl, by simp [listed, hu], rfl, nofun, nofun⟩
  · obtain ⟨front, parts, comma, hts, hfront, hes, htrailing, hne, hparts⟩ := sound_itemsFrom h hr
    exact ⟨front, parts, comma, hts, hfront, hes, fun hc => ⟨htrailing hc, hne⟩, hparts⟩

theorem wordLiteral?_count {w : String} (h : Text.upper w = "COUNT") : wordLiteral? w = none := by
  unfold wordLiteral? Keyword.ofName?
  rw [h]
  rfl

theorem sound_callBody (h : Sound expr .whole) {w : String} (hw : wordLiteral? w = none)
    {t u : Token} (ht : t.lexeme = .name w) (hu : u.lexeme = .openParen)
    (hr : callBody src (Text.upper w) expr ts = .ok (e, rest)) :
    ∃ front, t :: u :: ts = front ++ rest ∧ Derives .primary (lexemes front) e := by
  unfold callBody at hr
  split at hr
  · cases hr
  next hdistinct =>
  split at hr
  · cases hr
  next hselect =>
  rw [Bool.not_eq_true, nextIsKeyword_eq_false] at hdistinct hselect
  split at hr
  · next behind hstar =>
    obtain ⟨v, rfl, hv⟩ := after?_eq_some.1 hstar
    split at hr
    · cases hr
    · next hclose =>
      obtain ⟨z, rfl, hz⟩ := after?_eq_some.1 hclose
      split at hr
      · cases hr
      · next hcount =>
        cases hr
        refine ⟨[t, u, v, z], rfl, ?_⟩
        simpa [ht, hu, hv, hz] using Derives.countStar (not_not.1 hcount)
  · obtain ⟨⟨args, behind⟩, hitems, hargs⟩ := bind_eq_ok.1 hr
    cases hargs
    obtain ⟨front, parts, comma, rfl, hfront, rfl, hcomma, hparts⟩ := sound_items h hitems
    obtain rfl : comma = false := by
      by_contra hc
      exact absurd (hcomma (by simpa using hc)).1 (by simp)
    rw [lexemes_append, hfront] at hdistinct hselect
    refine ⟨t :: u :: front, rfl, ?_⟩
    rw [lexemes_cons, lexemes_cons, ht, hu, hfront]
    exact .call hw hdistinct.of_append hselect.of_append hparts

theorem sound_primary (h : Sound expr .whole) : Sound (primary src expr) .primary := by
  intro ts e rest hr
  unfold primary at hr
  split at hr
  · cases hr
  next t behind =>
  split at hr
  · next digits ht =>
    cases hr
    exact ⟨[t], rfl, by simpa [ht] using Derives.number digits⟩
  · next s ht =>
    cases hr
    exact ⟨[t], rfl, by simpa [ht] using Derives.literal s⟩
  · next w ht =>
    unfold named at hr
    split at hr
    · next x hw =>
      cases hr
      exact ⟨[t], rfl, by simpa [ht] using Derives.word hw⟩
    next hw =>
    split at hr
    · next hopen =>
      obtain ⟨u, rfl, hu⟩ := after?_eq_some.1 hopen
      exact sound_callBody h hw ht hu hr
    · split at hr
      · cases hr
      · next hreserved =>
        cases hr
        exact ⟨[t], rfl, by simpa [ht] using Derives.column (by simpa using hreserved)⟩
  · next ht =>
    split at hr
    · cases hr
    next hselect =>
    rw [Bool.not_eq_true, nextIsKeyword_eq_false] at hselect
    obtain ⟨⟨e', last⟩, hread, hlast⟩ := bind_eq_ok.1 hr
    obtain ⟨mid, rfl, he⟩ := h _ _ _ hread
    dsimp only at hlast
    split at hlast
    · next hclose =>
      obtain ⟨u, rfl, hu⟩ := after?_eq_some.1 hclose
      cases hlast
      rw [lexemes_append] at hselect
      refine ⟨t :: mid ++ [u], by simp, ?_⟩
      simpa [ht, hu] using Derives.parens hselect.of_append he
    · cases hlast
  · cases hr

theorem sound_signed {operand : Reader Expr} (h : Sound operand .primary) :
    Sound (signed operand) .signed := by
  intro ts e rest hr
  induction ts generalizing e with
  | nil =>
    obtain ⟨front, hts, he⟩ := h _ _ _ hr
    exact ⟨front, hts, .unsigned he⟩
  | cons t ts ih =>
    unfold signed at hr
    split at hr
    · next ht =>
      obtain ⟨⟨e', last⟩, hread, hlast⟩ := bind_eq_ok.1 hr
      cases hlast
      obtain ⟨front, rfl, he⟩ := ih _ hread
      exact ⟨t :: front, rfl, by simpa [ht] using Derives.minus he⟩
    · next ht =>
      obtain ⟨front, rfl, he⟩ := ih _ hr
      exact ⟨t :: front, rfl, by simpa [ht] using Derives.plus he⟩
    · obtain ⟨front, hts, he⟩ := h _ _ _ hr
      exact ⟨front, hts, .unsigned he⟩

theorem sound_negation {operand : Reader Expr} (h : Sound operand .comparison) :
    Sound (negation operand) .negation := by
  intro ts e rest hr
  induction ts generalizing e with
  | nil =>
    obtain ⟨front, hts, he⟩ := h _ _ _ hr
    obtain ⟨rfl, rfl⟩ := List.append_eq_nil_iff.1 hts.symm
    exact ⟨[], rfl, .positive nofun he⟩
  | cons t ts ih =>
    unfold negation at hr
    split at hr
    · next ht =>
      obtain ⟨⟨e', last⟩, hread, hlast⟩ := bind_eq_ok.1 hr
      cases hlast
      obtain ⟨front, rfl, he⟩ := ih _ hread
      exact ⟨t :: front, rfl, .not ht he⟩
    · next ht =>
      obtain ⟨front, hts, he⟩ := h _ _ _ hr
      have hnot : NotFirst .not (lexemes (t :: ts)) := by
        rintro _ ⟨⟩
        simpa [Token.isKeyword] using ht
      rw [hts, lexemes_append] at hnot
      exact ⟨front, hts, .positive hnot.of_append he⟩

theorem sound_nullTest {ls : List Lexeme} {left : Expr} (hleft : Derives (.chain .sum) ls left)
    {t : Token} (ht : t.lexeme.isKeyword .is = true) (hr : nullTest src left ts = .ok (e, rest)) :
    ∃ front, t :: ts = front ++ rest ∧ Derives .comparison (ls ++ lexemes front) e := by
  unfold nullTest at hr
  dsimp only at hr
  split at hr
  · next hnull =>
    cases hr
    obtain ⟨v, hrest, hv⟩ := afterKeyword?_eq_some.1 hnull
    cases hneg : nextIsKeyword .not ts with
    | false =>
      rw [hneg] at hrest
      obtain rfl : ts = v :: rest := hrest
      exact ⟨[t, v], rfl, by simpa using Derives.isNull hleft ht .absent hv⟩
    | true =>
      rw [hneg] at hrest
      cases ts with
      | nil => cases hneg
      | cons u ts =>
        obtain rfl : ts = v :: rest := hrest
        have hu : u.lexeme.isKeyword .not = true := hneg
        exact ⟨[t, u, v], rfl, by simpa using Derives.isNull hleft ht (.present hu) hv⟩
  · cases hr

theorem sound_memberList (h : Sound expr .whole) {ls ns : List Lexeme} {left : Expr}
    {negated : Bool} (hleft : Derives (.chain .sum) ls left) (hn : NotWord negated ns) {t : Token}
    (ht : t.lexeme.isKeyword .in = true) {es : List Expr}
    (hr : memberList src expr ts = .ok (es, rest)) :
    ∃ front, t :: ts = front ++ rest ∧
      Derives .comparison (ls ++ ns ++ lexemes front) (.inList left es negated) := by
  unfold memberList at hr
  split at hr
  · cases hr
  next hopen =>
  obtain ⟨u, rfl, hu⟩ := after?_eq_some.1 hopen
  split at hr
  · cases hr
  next hselect =>
  rw [Bool.not_eq_true, nextIsKeyword_eq_false] at hselect
  obtain ⟨front, parts, comma, rfl, hfront, rfl, hcomma, hparts⟩ := sound_items h hr
  rw [lexemes_append, hfront] at hselect
  refine ⟨t :: u :: front, rfl, ?_⟩
  rw [lexemes_cons, lexemes_cons, hu, hfront]
  exact .inList hleft hn ht hselect.of_append (fun hc => (hcomma hc).2) hparts

/-- The words of a membership test are at the front, `NOT` exactly if the test is negated. -/
theorem membership?_eq_some {negated : Bool} (h : membership? ts = some (negated, rest)) :
    ∃ front t, ts = front ++ t :: rest ∧ NotWord negated (lexemes front) ∧
      t.lexeme.isKeyword .in = true := by
  unfold membership? at h
  split at h
  · next hboth =>
    cases h
    obtain ⟨behind, hnot, hin⟩ := Option.bind_eq_some_iff.1 hboth
    obtain ⟨t, rfl, ht⟩ := afterKeyword?_eq_some.1 hnot
    obtain ⟨u, rfl, hu⟩ := afterKeyword?_eq_some.1 hin
    exact ⟨[t], u, rfl, .present ht, hu⟩
  · obtain ⟨_, hin, hpair⟩ := Option.map_eq_some_iff.1 h
    cases hpair
    obtain ⟨t, rfl, ht⟩ := afterKeyword?_eq_some.1 hin
    exact ⟨[], t, rfl, .absent, ht⟩

theorem sound_comparison (h : Sound expr .whole) {sum : Reader Expr} (hsum : Sound sum (.chain .sum)) :
    Sound (comparison src expr sum) .comparison := by
  intro ts e rest hr
  obtain ⟨⟨left, behind⟩, hread, hbehind⟩ := bind_eq_ok.1 hr
  obtain ⟨mid, rfl, hleft⟩ := hsum _ _ _ hread
  have extend : ∀ front, behind = front ++ rest →
      Derives .comparison (lexemes mid ++ lexemes front) e →
      ∃ front, mid ++ behind = front ++ rest ∧ Derives .comparison (lexemes front) e := by
    rintro front rfl he
    exact ⟨mid ++ front, by simp, by simpa using he⟩
  dsimp only at hbehind
  split at hbehind
  · next his =>
    obtain ⟨t, rfl, ht⟩ := afterKeyword?_eq_some.1 his
    obtain ⟨front, hfront, he⟩ := sound_nullTest hleft ht hbehind
    exact extend front hfront he
  · next negated more _ hmember =>
    obtain ⟨⟨es, last⟩, hlist, hes⟩ := bind_eq_ok.1 hbehind
    cases hes
    obtain ⟨words, t, rfl, hwords, ht⟩ := membership?_eq_some hmember
    obtain ⟨front, hfront, he⟩ := sound_memberList h hleft hwords ht hlist
    exact extend (words ++ front) (by rw [hfront, List.append_assoc])
      (by simpa [List.append_assoc] using he)
  · split at hbehind
    · cases hbehind
      exact extend [] rfl (by simpa using Derives.bare hleft)
    · next t more _ _ =>
      split at hbehind
      · cases hbehind
        exact extend [] rfl (by simpa using Derives.bare hleft)
      · next op hop =>
        obtain ⟨⟨right, last⟩, hread, hright⟩ := bind_eq_ok.1 hbehind
        cases hright
        obtain ⟨front, rfl, hright⟩ := hsum _ _ _ hread
        exact extend (t :: front) rfl (.compared hleft hop hright)

/-- The reader of each level is sound if the one for parentheses is. -/
theorem sound_levelReader (h : Sound expr .whole) (p : Phrase) : Sound (levelReader src expr p) p := by
  have signed : Sound (levelReader src expr .signed) .signed := sound_signed (sound_primary h)
  have product : Sound (levelReader src expr (.chain .product)) (.chain .product) :=
    sound_chain (c := .product) signed
  have sum : Sound (levelReader src expr (.chain .sum)) (.chain .sum) :=
    sound_chain (c := .sum) product
  have comparison : Sound (levelReader src expr .comparison) .comparison := sound_comparison h sum
  have negation : Sound (levelReader src expr .negation) .negation := sound_negation comparison
  have conjunction : Sound (levelReader src expr (.chain .conjunction)) (.chain .conjunction) :=
    sound_chain (c := .conjunction) negation
  match p with
  | .primary => exact sound_primary h
  | .signed => exact signed
  | .chain .product => exact product
  | .chain .sum => exact sum
  | .comparison => exact comparison
  | .negation => exact negation
  | .chain .conjunction => exact conjunction
  | .chain .disjunction => exact sound_chain (c := .disjunction) conjunction

theorem sound_exprWithin (n : Nat) : Sound (exprWithin src n) .whole := by
  induction n with
  | zero =>
    intro ts e rest h
    cases h
  | succ n ih => exact sound_levelReader ih .whole

/-- An expression is read off the front only if the lexemes there derive it. -/
theorem sound_expression : Sound (expression src) .whole :=
  fun ts _ _ h => sound_exprWithin ts.length ts _ _ h

end

end TableQuery.Sql
