import Mathlib.Data.List.Chain
import TableQuery.Proofs.Reading.Completeness
import TableQuery.Sql.Equality

/-!
# Pairing the equal signs of a text

The reader that pairs equal signs goes over characters and knows of string literals only. On a text
without backquoted names it stays in step with the tokens: it leaves every spelling as it is, but
for a single equal sign, which it doubles. The tokens that follow are still the longest at their
places, because pairing never changes what stands first. It would join two neighbouring runs of
equal signs; but in an expression no comparison follows another one, so the expression stays the
same.
-/

namespace TableQuery.Sql

/-- A lexeme with equality written in two signs. -/
def Lexeme.paired : Lexeme → Lexeme
  | .sign .equal => .sign .doubleEqual
  | l => l

/-- Whether a token of a text begins with a backquote. -/
def Token.isQuoted (src : List Char) (t : Token) : Bool :=
  (Text.dropBytes t.start src).head? == some '\x60'

/-- Whether no token of a text is a name in backquotes. -/
def namesAreBare (text : String) : Bool :=
  match tokenize text with
  | .ok ts => ts.all fun t => !t.isQuoted text.toList
  | .error _ => true

/-! ## Expressions with paired signs -/

namespace Lexeme

@[simp]
theorem isKeyword_paired (l : Lexeme) (k : Keyword) : l.paired.isKeyword k = l.isKeyword k := by
  unfold paired
  split <;> rfl

@[simp]
theorem comparisonOp?_paired (l : Lexeme) : comparisonOp? l.paired = comparisonOp? l := by
  unfold paired
  split <;> rfl

theorem op?_paired (c : Chained) (l : Lexeme) : c.op? l.paired = c.op? l := by
  unfold paired
  split
  · cases c <;> rfl
  · rfl

/-- Nothing that an expression begins with compares. -/
theorem compares_of_begins {l : Lexeme} (h : l.begins = true) : l.compares = false := by
  cases l with
  | sign s => cases s <;> first | rfl | cases h
  | _ => rfl

end Lexeme

theorem map_paired_listed (parts : List (List Lexeme)) (trailing : Bool) :
    (listed parts trailing).map Lexeme.paired =
      listed (parts.map (List.map Lexeme.paired)) trailing := by
  have hcommas : ([Lexeme.comma].intercalate parts).map Lexeme.paired =
      [Lexeme.comma].intercalate (parts.map (List.map Lexeme.paired)) := by
    induction parts with
    | nil => rfl
    | cons part parts ih =>
      cases parts with
      | nil => simp
      | cons other parts =>
        rw [List.intercalate_cons_cons, List.map_append, List.map_append, ih]
        exact List.intercalate_cons_cons.symm
  cases trailing <;> simp [listed, hcommas, Lexeme.paired]

theorem NotFirst.paired {k : Keyword} {ls : List Lexeme} (h : NotFirst k ls) :
    NotFirst k (ls.map Lexeme.paired) := by
  cases ls with
  | nil => exact nofun
  | cons l ls => simpa using h

theorem NotWord.paired {negated : Bool} {ns : List Lexeme} (h : NotWord negated ns) :
    NotWord negated (ns.map Lexeme.paired) := by
  cases h with
  | absent => exact .absent
  | present h => exact .present (by simpa using h)

/-- Lexemes in which equality has two signs spell the same expression. -/
theorem Derives.paired {p : Phrase} {ls : List Lexeme} {e : Expr} (h : Derives p ls e) :
    Derives p (ls.map Lexeme.paired) e := by
  have heads (parts : List (List Lexeme × Expr)) :
      (parts.map fun part => (part.1.map Lexeme.paired, part.2)).map Prod.fst =
        (parts.map Prod.fst).map (List.map Lexeme.paired) := by
    simp
  have tails (parts : List (List Lexeme × Expr)) :
      (parts.map fun part => (part.1.map Lexeme.paired, part.2)).map Prod.snd =
        parts.map Prod.snd := by
    simp
  induction h with
  | number digits => exact .number digits
  | literal s => exact .literal s
  | word h => exact .word h
  | column h => exact .column h
  | countStar h => exact .countStar h
  | @call w parts hw hdistinct hselect _ ih =>
    have hlist := map_paired_listed (parts.map Prod.fst) false
    rw [← heads] at hlist
    rw [List.map_cons, List.map_cons, hlist, ← tails]
    refine .call hw ?_ ?_ ?_
    · rw [← hlist]
      exact hdistinct.paired
    · rw [← hlist]
      exact hselect.paired
    · intro part hpart
      obtain ⟨part, hmem, rfl⟩ := List.mem_map.1 hpart
      exact ih part hmem
  | parens hselect _ ih =>
    rw [List.map_append]
    exact .parens hselect.paired ih
  | unsigned _ ih => exact .unsigned ih
  | minus _ ih => exact .minus ih
  | plus _ ih => exact .plus ih
  | first _ ih => exact .first ih
  | @next c _ _ l _ _ _ _ hop _ ihleft ihright =>
    rw [List.map_append]
    exact .next ihleft (by rw [Lexeme.op?_paired, hop]) ihright
  | bare _ ih => exact .bare ih
  | compared _ hop _ ihleft ihright =>
    rw [List.map_append]
    exact .compared ihleft (by rw [Lexeme.comparisonOp?_paired, hop]) ihright
  | isNull _ hl hn hm ih =>
    rw [List.map_append, List.map_append]
    exact .isNull ih (by simpa using hl) hn.paired (by simpa using hm)
  | @inList _ _ _ _ _ trailing parts _ hn hl hselect htrailing _ ih ihparts =>
    have hlist := map_paired_listed (parts.map Prod.fst) trailing
    rw [← heads] at hlist
    rw [List.map_append, List.map_append, List.map_cons, List.map_cons, hlist, ← tails]
    refine .inList ih hn.paired (by simpa using hl) ?_ (by simpa using htrailing) ?_
    · rw [← hlist]
      exact hselect.paired
    · intro part hpart
      obtain ⟨part, hmem, rfl⟩ := List.mem_map.1 hpart
      exact ihparts part hmem
  | positive hnot _ ih => exact .positive hnot.paired ih
  | not hl _ ih => exact .not (by simpa using hl) ih

/-! ## No comparison follows another one -/

/-- Lexemes among which no comparison directly follows another one. -/
def Apart (ls : List Lexeme) : Prop :=
  ls.IsChain fun l m => l.compares = true → m.compares = false

/-- Lexemes that can stand in front of any others without a comparison coming to follow another. -/
def Settled (ls : List Lexeme) : Prop :=
  ∀ rest, Apart rest → Apart (ls ++ rest)

namespace Settled

variable {ls ms : List Lexeme} {l : Lexeme}

theorem nil : Settled [] :=
  fun _ h => h

theorem append (hls : Settled ls) (hms : Settled ms) : Settled (ls ++ ms) := by
  intro rest h
  rw [List.append_assoc]
  exact hls _ (hms rest h)

theorem cons (hl : l.compares = false) (hls : Settled ls) : Settled (l :: ls) := by
  intro rest h
  refine List.isChain_cons.2 ⟨fun m _ hcompares => ?_, hls rest h⟩
  rw [hl] at hcompares
  cases hcompares

/-- A comparison is followed by what an expression begins with. -/
theorem comparison (hls : Settled ls) (hbegins : ∃ m tail, ls = m :: tail ∧ m.begins = true) :
    Settled (l :: ls) := by
  intro rest h
  obtain ⟨m, tail, rfl, hm⟩ := hbegins
  refine List.isChain_cons.2 ⟨?_, hls rest h⟩
  rintro _ ⟨⟩ -
  exact Lexeme.compares_of_begins hm

theorem listed {parts : List (List Lexeme × Expr)} (h : ∀ part ∈ parts, Settled part.1)
    (trailing : Bool) : Settled (listed (parts.map Prod.fst) trailing) := by
  refine .append (.append ?_ ?_) (.cons rfl nil)
  · induction parts with
    | nil => exact nil
    | cons part parts ih =>
      obtain ⟨hpart, hparts⟩ := List.forall_mem_cons.1 h
      cases parts with
      | nil => simpa using hpart
      | cons other parts =>
        rw [List.map_cons, List.map_cons, List.intercalate_cons_cons]
        exact .append (.append hpart (.cons rfl nil)) (ih hparts)
  · cases trailing
    · exact nil
    · exact .cons rfl nil

end Settled

theorem NotWord.settled {negated : Bool} {ns : List Lexeme} (h : NotWord negated ns) :
    Settled ns := by
  cases h with
  | absent => exact .nil
  | present h => exact .cons (Lexeme.compares_of_isKeyword h) .nil

/-- A phrase keeps its comparisons apart, and ends with none. -/
theorem Derives.settled {p : Phrase} {ls : List Lexeme} {e : Expr} (h : Derives p ls e) :
    Settled ls := by
  induction h with
  | number | literal | word | column => exact .cons rfl .nil
  | countStar => exact .cons rfl (.cons rfl (.cons rfl (.cons rfl .nil)))
  | call _ _ _ _ ih => exact .cons rfl (.cons rfl (.listed ih false))
  | parens _ _ ih => exact .cons rfl (.append ih (.cons rfl .nil))
  | unsigned _ ih | first _ ih | bare _ ih | positive _ _ ih => exact ih
  | minus _ ih | plus _ ih => exact .cons rfl ih
  | next _ hop _ ihleft ihright =>
    exact .append ihleft (.cons (Lexeme.compares_of_op? hop) ihright)
  | compared _ _ hright ihleft ihright =>
    exact .append ihleft (.comparison ihright hright.exists_cons)
  | isNull _ hl hn hm ih =>
    have hnull : Settled [_] := .cons (Lexeme.compares_of_isKeyword hm) .nil
    exact .append (.append ih (.cons (Lexeme.compares_of_isKeyword hl) hn.settled)) hnull
  | @inList _ _ _ _ _ trailing _ _ hn hl _ _ _ ih ihparts =>
    exact .append (.append ih hn.settled)
      (.cons (Lexeme.compares_of_isKeyword hl) (.cons rfl (.listed ihparts trailing)))
  | not hl _ ih => exact .cons (Lexeme.compares_of_isKeyword hl) ih

theorem Derives.apart {p : Phrase} {ls : List Lexeme} {e : Expr} (h : Derives p ls e) :
    Apart ls := by
  have hls := h.settled [] List.isChain_nil
  rwa [List.append_nil] at hls

/-! ## The characters of one token -/

/-- The reader stands outside literals, and an equal sign that comes next is neither part of a
comparison nor of a run that has begun. -/
def Ready : ConditionState → List Char → Prop
  | .literal _, _ => False
  | .plain comparing, cs => comparing = true → cs.head? ≠ some '='
  | .signs _, cs => cs.head? ≠ some '='

theorem ready_plain (cs : List Char) : Ready (.plain false) cs :=
  nofun

section

variable {st : ConditionState} {c : Char} {cs : List Char}

theorem pairSignsFrom_cons (h : Ready st (c :: cs)) (hc : c ≠ '=') :
    pairSignsFrom st (c :: cs) = c :: pairSignsFrom (.after c) cs := by
  cases st with
  | literal q => exact h.elim
  | plain comparing => simp [pairSignsFrom, hc]
  | signs kept => simp [pairSignsFrom, hc]

theorem pairSignsFrom_equal (h : Ready st ('=' :: cs)) :
    pairSignsFrom st ('=' :: cs) = '=' :: '=' :: pairSignsFrom (.signs false) cs := by
  cases st with
  | literal q => exact h.elim
  | plain comparing =>
    cases comparing with
    | false => simp [pairSignsFrom]
    | true => exact absurd rfl (h rfl)
  | signs kept => exact absurd rfl h

/-- Pairing does not change what stands first. -/
theorem head?_pairSignsFrom (h : Ready st cs) : (pairSignsFrom st cs).head? = cs.head? := by
  cases cs with
  | nil => rw [pairSignsFrom]
  | cons c cs =>
    by_cases hc : c = '='
    · subst hc
      rw [pairSignsFrom_equal h]
      rfl
    · rw [pairSignsFrom_cons h hc]
      rfl

/-- The characters that have a meaning for the pairing of equal signs. -/
def pairingCharacters : List Char :=
  ['=', '!', '<', '>', '\'', '"']

theorem not_mem_of_digit (hc : c.isDigit = true) : c ∉ pairingCharacters :=
  not_mem_of_test hc (by decide)

theorem not_mem_of_decimal {digits places : List Char} (hd : ∀ c ∈ digits, c.isDigit = true)
    (hp : ∀ c ∈ places, c.isDigit = true) :
    ∀ c ∈ digits ++ '.' :: places, c ∉ pairingCharacters := by
  intro c hc
  rcases List.mem_append.1 hc with hc | hc
  · exact not_mem_of_digit (hd c hc)
  · rcases List.mem_cons.1 hc with rfl | hc
    · decide
    · exact not_mem_of_digit (hp c hc)

theorem not_mem_of_name {tail : List Char} (hc : beginsName c = true)
    (htail : ∀ d ∈ tail, continuesName (c == '@') d = true) :
    ∀ d ∈ c :: tail, d ∉ pairingCharacters := by
  intro d hd
  rcases List.mem_cons.1 hd with rfl | hd
  · exact not_mem_of_test hc (by decide)
  · exact not_mem_of_test (htail d hd) (by cases c == '@' <;> decide)

theorem after_plain (hc : c ∉ pairingCharacters) : ConditionState.after c = .plain false := by
  simp only [pairingCharacters, List.mem_cons, List.not_mem_nil, or_false, not_or] at hc
  simp [ConditionState.after, hc]

theorem ne_equal_of_plain (hc : c ∉ pairingCharacters) : c ≠ '=' := by
  rintro rfl
  exact hc (by decide)

theorem pairSignsFrom_blank (h : Ready st (c :: cs)) (hc : Text.isBlank c = true) :
    pairSignsFrom st (c :: cs) = c :: pairSignsFrom (.plain false) cs := by
  have hplain : c ∉ pairingCharacters := not_mem_of_test hc (by decide)
  rw [pairSignsFrom_cons h (ne_equal_of_plain hplain), after_plain hplain]

/-- A run of characters without a meaning is left as it is. -/
theorem pairSignsFrom_run {xs : List Char} (hne : xs ≠ [])
    (hxs : ∀ x ∈ xs, x ∉ pairingCharacters) (h : Ready st (xs ++ cs)) :
    pairSignsFrom st (xs ++ cs) = xs ++ pairSignsFrom (.plain false) cs := by
  induction xs generalizing st with
  | nil => exact absurd rfl hne
  | cons x xs ih =>
    obtain ⟨hx, hxs⟩ := List.forall_mem_cons.1 hxs
    rw [List.cons_append] at h ⊢
    rw [pairSignsFrom_cons h (ne_equal_of_plain hx), after_plain hx]
    cases xs with
    | nil => rfl
    | cons y ys => exact congrArg (x :: ·) (ih (List.cons_ne_nil y ys) hxs (ready_plain _))

/-- The content of a literal is left as it is, with its doubled quotes. -/
theorem pairSignsFrom_doubled {quote : Char} (hq : quote = '\'' ∨ quote = '"')
    (content : List Char) :
    pairSignsFrom (.literal quote) (content.flatMap (doubled quote) ++ quote :: cs) =
      content.flatMap (doubled quote) ++ quote :: pairSignsFrom (.plain false) cs := by
  induction content with
  | nil => simp [pairSignsFrom]
  | cons c content ih =>
    rw [List.flatMap_cons, List.append_assoc, List.append_assoc]
    by_cases hc : c = quote
    · have hopens : ConditionState.after quote = .literal quote := if_pos hq
      have hsign : quote ≠ '=' := by
        rcases hq with rfl | rfl <;> decide
      rw [show doubled quote c = [quote, quote] from if_pos hc]
      simp [pairSignsFrom, hsign, hopens, ih]
    · rw [show doubled quote c = [c] from if_neg hc]
      simp [pairSignsFrom, hc, ih]

end

/-- A sign of which the next character could have become part is alone. -/
theorem scanSign?_less {cs : List Char} (h : cs.head? ≠ some '=') (h' : cs.head? ≠ some '>') :
    scanSign? ('<' :: cs) = some ⟨.sign .less, ['<'], cs⟩ := by
  cases cs with
  | nil => rfl
  | cons c cs => simp_all [scanSign?]

theorem scanSign?_greater {cs : List Char} (h : cs.head? ≠ some '=') :
    scanSign? ('>' :: cs) = some ⟨.sign .greater, ['>'], cs⟩ := by
  cases cs with
  | nil => rfl
  | cons c cs => simp_all [scanSign?]

/-- What pairing makes of a token: the characters that spell its pair. Behind it the reader is
ready, unless the token compares and an equal sign comes next. -/
def Pairs (l : Lexeme) (st : ConditionState) (spelling rest : List Char) : Prop :=
  ∃ spelling' st', pairSignsFrom st (spelling ++ rest) = spelling' ++ pairSignsFrom st' rest ∧
    Spelled l.paired spelling' (pairSignsFrom st' rest) ∧
    ((l.compares = true → rest.head? ≠ some '=') → Ready st' rest)

section

variable {l : Lexeme} {spelling rest : List Char} {st : ConditionState} {c : Char}

theorem Pairs.of_run (hne : spelling ≠ []) (hrun : ∀ c ∈ spelling, c ∉ pairingCharacters)
    (hst : Ready st (spelling ++ rest))
    (h : Spelled l.paired spelling (pairSignsFrom (.plain false) rest)) :
    Pairs l st spelling rest :=
  ⟨spelling, .plain false, pairSignsFrom_run hne hrun hst, h, fun _ => ready_plain rest⟩

/-- An equal sign is kept behind a character with which a comparison begins. -/
theorem Pairs.of_kept (hc : c ≠ '=') (hafter : ConditionState.after c = .plain true)
    (hcompares : l.compares = true) (hst : Ready st (c :: '=' :: rest))
    (h : ∀ cs, Spelled l.paired [c, '='] cs) : Pairs l st [c, '='] rest := by
  refine ⟨[c, '='], .signs true, ?_, h _, fun hnext => hnext hcompares⟩
  refine (pairSignsFrom_cons hst hc).trans ?_
  rw [hafter]
  simp [pairSignsFrom]

/-- A character with which a comparison begins is the whole of it, if no equal sign comes next. -/
theorem Pairs.of_alone (hc : c ≠ '=') (hafter : ConditionState.after c = .plain true)
    (hrest : ∀ cs, rest ≠ '=' :: cs) (hst : Ready st (c :: rest))
    (h : ∀ cs, cs.head? = rest.head? → Spelled l.paired [c] cs) : Pairs l st [c] rest := by
  have hready : Ready (.plain true) rest := by
    rintro - hhead
    obtain ⟨cs, rfl⟩ := List.head?_eq_some_iff.1 hhead
    exact hrest cs rfl
  refine ⟨[c], .plain true, ?_, h _ (head?_pairSignsFrom hready), fun _ => hready⟩
  rw [← hafter]
  exact pairSignsFrom_cons hst hc

theorem head?_ne_of_forall {d : Char} {cs : List Char} (h : ∀ cs, rest ≠ d :: cs)
    (hcs : cs.head? = rest.head?) : cs.head? ≠ some d := by
  rw [hcs]
  intro hhead
  obtain ⟨cs, rfl⟩ := List.head?_eq_some_iff.1 hhead
  exact h cs rfl

theorem pairs_sign (h : scanSign? (spelling ++ rest) = some ⟨l, spelling, rest⟩)
    (hst : Ready st (spelling ++ rest)) : Pairs l st spelling rest := by
  have plain {c : Char} (hc : c ∉ pairingCharacters) (hspelling : spelling = [c])
      (hspelled : ∀ cs, Spelled l.paired [c] cs) : Pairs l st spelling rest := by
    subst hspelling
    exact .of_run (List.cons_ne_nil c []) (by simpa using hc) hst (hspelled _)
  generalize hcs : spelling ++ rest = cs at h hst
  unfold scanSign? at h
  split at h <;> cases h
  · refine ⟨['=', '='], .signs false, (pairSignsFrom_equal hst).trans ?_, .sign rfl, fun h => h rfl⟩
    simp [pairSignsFrom]
  · exact ⟨['=', '='], .signs false, pairSignsFrom_equal hst, .sign rfl, fun h => h rfl⟩
  · exact .of_kept (by decide) rfl rfl hst fun _ => .sign rfl
  · exact .of_kept (by decide) rfl rfl hst fun _ => .sign rfl
  · refine ⟨['<', '>'], .plain true, (pairSignsFrom_cons hst (by decide)).trans ?_, .sign rfl,
      fun h _ => h rfl⟩
    simp [pairSignsFrom, ConditionState.after]
  · next hequal hgreater =>
    exact .of_alone (by decide) rfl hequal hst fun _ hhead => .sign
      (scanSign?_less (head?_ne_of_forall hequal hhead) (head?_ne_of_forall hgreater hhead))
  · exact .of_kept (by decide) rfl rfl hst fun _ => .sign rfl
  · next hequal =>
    exact .of_alone (by decide) rfl hequal hst fun _ hhead => .sign
      (scanSign?_greater (head?_ne_of_forall hequal hhead))
  all_goals exact plain (by decide) rfl fun cs => .sign rfl

/-- Any token that is no name in backquotes is paired. -/
theorem Spelled.pairs (h : Spelled l spelling rest) (hbare : spelling.head? ≠ some '\x60')
    (hst : Ready st (spelling ++ rest)) : Pairs l st spelling rest := by
  have hready := ready_plain rest
  have hhead := head?_pairSignsFrom hready
  cases h with
  | sign h => exact pairs_sign h hst
  | @literal quote content rest hq hrest =>
    refine ⟨_, .plain false, ?_, .literal hq (by rwa [hhead]), fun _ => hready⟩
    have hopens : ConditionState.after quote = .literal quote := if_pos hq
    have hsign : quote ≠ '=' := by
      rcases hq with rfl | rfl <;> decide
    rw [List.cons_append] at hst ⊢
    rw [pairSignsFrom_cons hst hsign, hopens, List.append_assoc, List.singleton_append,
      pairSignsFrom_doubled hq]
    simp
  | quoted => exact absurd rfl hbare
  | whole hne hd hrest hpoint =>
    have hrun : ∀ c ∈ spelling, c ∉ pairingCharacters := fun c hc => not_mem_of_digit (hd c hc)
    refine .of_run hne hrun hst (.whole hne hd (by rwa [hhead]) ?_)
    intro c cs hcs
    rw [hcs] at hhead
    obtain ⟨behind, rfl⟩ := List.head?_eq_some_iff.1 hhead.symm
    rw [pairSignsFrom_cons hready (by decide), after_plain (by decide)] at hcs
    have hsecond := head?_pairSignsFrom (ready_plain behind)
    rw [(List.cons.inj hcs).2] at hsecond
    obtain ⟨more, rfl⟩ := List.head?_eq_some_iff.1 hsecond.symm
    exact hpoint c more rfl
  | point hne hne' hd hp hrest =>
    exact .of_run (by simp) (not_mem_of_decimal hd hp) hst (.point hne hne' hd hp (by rwa [hhead]))
  | @bare c tail rest hc htail hrest =>
    exact .of_run (List.cons_ne_nil c tail) (not_mem_of_name hc htail) hst
      (.bare hc htail (by rwa [hhead]))

end

/-! ## Texts -/

/-- A text that begins with an equal sign has a comparison as its first token. -/
theorem compares_of_equal_first {offset : Nat} {cs : List Char} {ts : List Token}
    (h : tokensFrom offset ('=' :: cs) = .ok ts) :
    ∃ t us, ts = t :: us ∧ t.lexeme.compares = true := by
  have hsign : ∃ s, scanSign? ('=' :: cs) = some s ∧ s.lexeme.compares = true := by
    cases cs with
    | nil => exact ⟨_, rfl, rfl⟩
    | cons c cs =>
      by_cases hc : c = '='
      · subst hc
        exact ⟨_, rfl, rfl⟩
      · exact ⟨⟨.sign .equal, ['='], c :: cs⟩, by simp [scanSign?, hc], rfl⟩
  obtain ⟨s, hs, hcompares⟩ := hsign
  have hscan : scan offset '=' cs = .ok s := by rw [scan, hs]
  rw [tokensFrom, if_neg (by decide)] at h
  split at h
  · cases h
  · next s' hs' =>
    rw [hscan] at hs'
    cases hs'
    dsimp only at h
    split at h
    · cases h
    · cases h
      exact ⟨_, _, rfl, hcompares⟩

/-- Where no token is in backquotes and no comparison follows another one, the reader that pairs
equal signs leaves the paired lexemes. -/
theorem lexes_pairSignsFrom {src before cs : List Char} {ts : List Token} {st : ConditionState}
    (hsrc : src = before ++ cs) (h : tokensFrom (Text.byteLength before) cs = .ok ts)
    (hbare : ∀ t ∈ ts, t.isQuoted src = false) (hapart : Apart (lexemes ts)) (hst : Ready st cs) :
    Lexes (pairSignsFrom st cs) ((lexemes ts).map Lexeme.paired) [] := by
  generalize hoffset : Text.byteLength before = offset at h
  fun_induction tokensFrom offset cs generalizing ts st before with
  | case1 =>
    cases h
    rw [pairSignsFrom]
    exact .done []
  | case2 offset c cs hc ih =>
    rw [pairSignsFrom_blank hst hc]
    have hsrc' : src = before ++ [c] ++ cs := by
      rw [hsrc, List.append_assoc, List.singleton_append]
    exact .blank hc (ih hsrc' hbare hapart (ready_plain cs) (by simp [hoffset]) h)
  | case3 => cases h
  | case4 => cases h
  | case5 offset c cs hc s hs hlt stop us hus =>
    rename_i ih
    cases h
    have hcs := (scan_eq hs).1
    have hbare' : s.spelling.head? ≠ some '\x60' := by
      have hquoted := hbare _ List.mem_cons_self
      rw [Token.isQuoted, ← hoffset, hsrc, Text.dropBytes_byteLength_append, ← hcs] at hquoted
      obtain ⟨d, spelling, hspelling⟩ := List.exists_cons_of_ne_nil (scan_eq hs).2
      rw [hspelling] at hquoted ⊢
      simpa using hquoted
    rw [← hcs] at hst ⊢
    obtain ⟨spelling', st', hpaired, hspelled, hready⟩ :=
      (Spelled.of_scan hs).pairs hbare' hst
    have hnext : s.lexeme.compares = true → s.rest.head? ≠ some '=' := by
      intro hcompares hhead
      obtain ⟨more, hrest⟩ := List.head?_eq_some_iff.1 hhead
      rw [hrest] at hus
      obtain ⟨t, us, rfl, ht⟩ := compares_of_equal_first hus
      have := (List.isChain_cons_cons.1 hapart).1 hcompares
      rw [ht] at this
      cases this
    rw [hpaired]
    have hsrc' : src = before ++ s.spelling ++ s.rest := by
      rw [hsrc, ← hcs, List.append_assoc]
    refine .token hspelled (ih hsrc' ?_ hapart.tail (hready hnext) ?_ hus)
    · exact fun t ht => hbare t (List.mem_cons_of_mem _ ht)
    · rw [Text.byteLength_append, hoffset]

/-! ## Literals that are open -/

/-- The quote of the literal that is open behind a text, if one is. Backquotes are no quotes. -/
def openQuote : Option Char → List Char → Option Char
  | q, [] => q
  | some q, c :: cs => openQuote (if c = q then none else some q) cs
  | none, c :: cs => openQuote (if c = '\'' ∨ c = '"' then some c else none) cs

/-- The quote of the literal that a reader of a condition stands in. -/
def ConditionState.quote? : ConditionState → Option Char
  | .literal q => some q
  | .plain _ => none
  | .signs _ => none

theorem ConditionState.quote?_after (c : Char) :
    (after c).quote? = if c = '\'' ∨ c = '"' then some c else none := by
  unfold after
  split <;> rfl

/-- Pairing opens and closes no literals. -/
theorem openQuote_pairSignsFrom (st : ConditionState) (cs : List Char) :
    openQuote st.quote? (pairSignsFrom st cs) = openQuote st.quote? cs := by
  fun_induction pairSignsFrom st cs with
  | case1 => rfl
  | case2 q c cs ih =>
    have hquote : (if c = q then ConditionState.plain false else .literal q).quote? =
        if c = q then none else some q := by
      split <;> rfl
    rw [hquote] at ih
    exact ih
  | case3 comparing c cs hc ih | case6 kept c cs hc ih =>
    rw [ConditionState.quote?_after] at ih
    exact ih
  | case4 c cs hc ih | case7 c cs hc ih =>
    obtain rfl := not_not.1 hc
    exact ih
  | case5 _ c cs hc _ ih | case8 _ c cs hc _ ih =>
    obtain rfl := not_not.1 hc
    exact ih

/-- Behind a text that leaves no literal open the reader begins anew with a character that has no
meaning for it. -/
theorem pairSignsFrom_append_closed {st : ConditionState} {xs : List Char}
    (h : openQuote st.quote? xs = none) {c : Char} (hc : c ∉ pairingCharacters) (cs : List Char) :
    pairSignsFrom st (xs ++ c :: cs) =
      pairSignsFrom st xs ++ c :: pairSignsFrom (.plain false) cs := by
  fun_induction pairSignsFrom st xs with
  | case1 st =>
    have hready : Ready st (c :: cs) := by
      cases st with
      | literal q => cases h
      | plain comparing => exact fun _ hhead => ne_equal_of_plain hc (Option.some.inj hhead)
      | signs kept => exact fun hhead => ne_equal_of_plain hc (Option.some.inj hhead)
    rw [List.nil_append, pairSignsFrom_cons hready (ne_equal_of_plain hc), after_plain hc]
    rfl
  | case2 q d xs ih =>
    have hquote : (if d = q then ConditionState.plain false else .literal q).quote? =
        if d = q then none else some q := by
      split <;> rfl
    rw [List.cons_append, pairSignsFrom, ih (by rw [hquote]; exact h), List.cons_append]
  | case3 comparing d xs hd ih | case6 kept d xs hd ih =>
    have hrest : openQuote (ConditionState.after d).quote? xs = none := by
      rw [ConditionState.quote?_after]
      exact h
    rw [List.cons_append, pairSignsFrom, if_pos hd, ih hrest, List.cons_append]
  | case4 d xs hd ih | case7 d xs hd ih =>
    obtain rfl := not_not.1 hd
    rw [List.cons_append, pairSignsFrom, if_neg hd, if_pos rfl, ih h, List.cons_append]
  | case5 comparing d xs hd hcomparing ih =>
    obtain rfl := not_not.1 hd
    rw [List.cons_append, pairSignsFrom, if_neg hd, if_neg hcomparing, ih h, List.cons_append,
      List.cons_append]
  | case8 kept d xs hd hkept ih =>
    obtain rfl := not_not.1 hd
    rw [List.cons_append, pairSignsFrom, if_neg hd, if_neg hkept, ih h]

theorem openQuote_run {xs : List Char} (h : ∀ x ∈ xs, x ∉ pairingCharacters) (cs : List Char) :
    openQuote none (xs ++ cs) = openQuote none cs := by
  induction xs with
  | nil => rfl
  | cons x xs ih =>
    obtain ⟨hx, hxs⟩ := List.forall_mem_cons.1 h
    have hquote : ¬(x = '\'' ∨ x = '"') := by
      rintro (rfl | rfl) <;> exact hx (by decide)
    rw [List.cons_append, openQuote, if_neg hquote, ih hxs]

/-- A literal is closed behind its content. -/
theorem openQuote_doubled {quote : Char} (hq : quote = '\'' ∨ quote = '"')
    (content cs : List Char) :
    openQuote (some quote) (content.flatMap (doubled quote) ++ quote :: cs) = openQuote none cs := by
  induction content with
  | nil => simp [openQuote]
  | cons c content ih =>
    rw [List.flatMap_cons, List.append_assoc]
    by_cases hc : c = quote
    · rw [show doubled quote c = [quote, quote] from if_pos hc]
      simpa [openQuote, hq] using ih
    · rw [show doubled quote c = [c] from if_neg hc]
      simpa [openQuote, hc] using ih

theorem openQuote_sign {l : Lexeme} {spelling rest cs : List Char}
    (h : scanSign? cs = some ⟨l, spelling, rest⟩) : openQuote none (spelling ++ rest) =
      openQuote none rest := by
  unfold scanSign? at h
  split at h <;> cases h <;> rfl

/-- A token that is no name in backquotes leaves no literal open. -/
theorem Spelled.openQuote {l : Lexeme} {spelling rest : List Char} (h : Spelled l spelling rest)
    (hbare : '\x60' ∉ spelling) :
    Sql.openQuote none (spelling ++ rest) = Sql.openQuote none rest := by
  cases h with
  | sign h => exact openQuote_sign h
  | @literal quote content rest hq hrest =>
    rw [List.cons_append, Sql.openQuote, if_pos hq, List.append_assoc]
    exact openQuote_doubled hq content rest
  | quoted => exact absurd List.mem_cons_self hbare
  | whole hne hd => exact openQuote_run (fun c hc => not_mem_of_digit (hd c hc)) rest
  | point hne hne' hd hp => exact openQuote_run (not_mem_of_decimal hd hp) rest
  | bare hc htail => exact openQuote_run (not_mem_of_name hc htail) rest

/-- A text of tokens without backquotes leaves no literal open. -/
theorem Lexes.openQuote {cs : List Char} {ls : List Lexeme} (h : Lexes cs ls [])
    (hbare : '\x60' ∉ cs) : Sql.openQuote none cs = none := by
  generalize hrest : ([] : List Char) = rest at h
  induction h with
  | done =>
    subst hrest
    rfl
  | @blank c cs _ _ hc _ ih =>
    have hrun : ∀ x ∈ [c], x ∉ pairingCharacters := by
      simpa using not_mem_of_test hc (by decide)
    rw [← List.singleton_append, openQuote_run hrun]
    exact ih (fun hmem => hbare (List.mem_cons_of_mem c hmem)) hrest
  | token hl _ ih =>
    rw [hl.openQuote fun hmem => hbare (List.mem_append_left _ hmem)]
    exact ih (fun hmem => hbare (List.mem_append_right _ hmem)) hrest

end TableQuery.Sql

namespace TableQuery.Expr

open Sql

/-- A text without backquoted names that spells an expression still spells it when its equal signs
are paired. -/
theorem parse_paired {text : String} {e : Expr} (h : parse text = .ok e)
    (hbare : namesAreBare text = true) : parse (pairSigns text) = .ok e := by
  obtain ⟨ls, hls, he⟩ := parse_eq_ok_iff.1 h
  obtain ⟨ts, hts, rfl⟩ := hls.tokensFrom 0
  have hbare : ∀ t ∈ ts, t.isQuoted text.toList = false := by
    have htokens : tokenize text = .ok ts := hts
    simpa [namesAreBare, htokens] using hbare
  have hsrc : text.toList = [] ++ text.toList := rfl
  refine parse_eq_ok_iff.2 ⟨(lexemes ts).map Lexeme.paired, ?_, he.paired⟩
  rw [pairSigns, String.toList_ofList]
  exact lexes_pairSignsFrom hsrc hts hbare he.apart (ready_plain _)

end TableQuery.Expr
