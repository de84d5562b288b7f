import TableQuery.Proofs.Reading.Soundness

/-!
# What is derived is read

A derived phrase is taken off the front of the tokens whenever what stands behind it does not
continue it. A chain is read from the left while its derivation ends with the rightmost operator: so
the induction says of a chain that its reader, having taken the chain, goes on with what follows as
it would behind any first operand.
-/

namespace TableQuery.Sql

/-! ## Lexemes and the levels they continue -/

theorem Lexeme.isKeyword_name {s : String} {k : Keyword} :
    (Lexeme.name s).isKeyword k = true ↔ Keyword.ofName? s = some k := by
  rw [Keyword.ofName?_eq_some_iff, isKeyword, beq_iff_eq, eq_comm]

theorem Lexeme.isKeyword_unique {l : Lexeme} {j k : Keyword} (hj : l.isKeyword j = true)
    (hk : l.isKeyword k = true) : j = k := by
  cases l with
  | name s => exact Option.some.inj ((isKeyword_name.1 hj).symm.trans (isKeyword_name.1 hk))
  | _ => cases hj

/-- A key word continues no level by a sign. -/
theorem Lexeme.looseness_of_isKeyword {l : Lexeme} {k : Keyword} (h : l.isKeyword k = true) :
    l.looseness = if k = .is ∨ k = .in ∨ k = .not then 3 else if k = .and then 4
      else if k = .or then 5 else 6 := by
  have hiff (j : Keyword) : l.isKeyword j = true ↔ k = j :=
    ⟨fun hj => isKeyword_unique h hj, fun hj => hj ▸ h⟩
  cases l with
  | name s => simp [looseness, hiff, productOp?, sumOp?, comparisonOp?]
  | _ => cases h

theorem Lexeme.looseness_of_comparisonOp? {l : Lexeme} {op : BinaryOp}
    (h : comparisonOp? l = some op) : l.looseness = 3 := by
  unfold comparisonOp? at h
  split at h <;> first | rfl | cases h

theorem Chained.looseness_of_op? {c : Chained} {l : Lexeme} {op : BinaryOp}
    (h : c.op? l = some op) : l.looseness = (Phrase.chain c).looseness := by
  cases c with
  | product =>
    simp only [op?] at h
    unfold productOp? at h
    split at h <;> first | rfl | cases h
  | sum =>
    simp only [op?] at h
    unfold sumOp? at h
    split at h <;> first | rfl | cases h
  | conjunction =>
    simp only [op?, andOp?] at h
    split at h
    · next hand => simp [Lexeme.looseness_of_isKeyword hand, Phrase.looseness]
    · cases h
  | disjunction =>
    simp only [op?, orOp?] at h
    split at h
    · next hor => simp [Lexeme.looseness_of_isKeyword hor, Phrase.looseness]
    · cases h

/-- Whether a lexeme compares. -/
def Lexeme.compares (l : Lexeme) : Bool :=
  (comparisonOp? l).isSome

theorem Lexeme.compares_of_isKeyword {l : Lexeme} {k : Keyword} (h : l.isKeyword k = true) :
    l.compares = false := by
  cases l with
  | name s => rfl
  | _ => cases h

theorem Lexeme.compares_of_op? {c : Chained} {l : Lexeme} {op : BinaryOp} (h : c.op? l = some op) :
    l.compares = false := by
  by_contra hc
  obtain ⟨op', hop'⟩ := Option.isSome_iff_exists.1 ((Bool.not_eq_false _).mp hc)
  have h₁ := Chained.looseness_of_op? h
  rw [looseness_of_comparisonOp? hop'] at h₁
  cases c <;> cases h₁

theorem Chained.looseness_operand (c : Chained) :
    c.operand.looseness < (Phrase.chain c).looseness := by
  cases c <;> decide

namespace Stops

variable {p q : Phrase} {rest : List Token} {t : Token}

theorem nil (p : Phrase) : Stops p [] :=
  nofun

theorem cons (h : p.looseness < t.lexeme.looseness) : Stops p (t :: rest) := by
  rintro _ ⟨⟩
  exact h

theorem mono (h : p.looseness ≤ q.looseness) (hq : Stops q rest) : Stops p rest :=
  fun t ht => Nat.lt_of_le_of_lt h (hq t ht)

theorem after?_openParen (h : Stops .primary rest) : after? .openParen rest = none := by
  cases rest with
  | nil => rfl
  | cons t rest =>
    have hlt := h t rfl
    refine if_neg fun ht => ?_
    rw [ht] at hlt
    exact absurd hlt (by decide)

theorem afterKeyword? {k : Keyword} (hk : k = .is ∨ k = .in ∨ k = .not)
    (h : Stops .comparison rest) : Sql.afterKeyword? k rest = none := by
  cases rest with
  | nil => rfl
  | cons t rest =>
    have hlt := h t rfl
    refine if_neg fun ht => ?_
    rw [Lexeme.looseness_of_isKeyword ht, if_pos hk] at hlt
    exact absurd hlt (by decide)

theorem membership? (h : Stops .comparison rest) : Sql.membership? rest = none := by
  unfold Sql.membership?
  rw [h.afterKeyword? (by simp), h.afterKeyword? (by simp)]
  rfl

theorem comparisonOp? (h : Stops .comparison (t :: rest)) :
    Sql.comparisonOp? t.lexeme = none := by
  refine Option.eq_none_iff_forall_ne_some.2 fun op hop => ?_
  have hlt := h t rfl
  rw [Lexeme.looseness_of_comparisonOp? hop] at hlt
  exact absurd hlt (by decide)

/-- Behind a whole chain its reader stops. -/
theorem chainFrom {c : Chained} (h : Stops (.chain c) rest) (operand : Reader Expr) (n : Nat)
    (e : Expr) : Sql.chainFrom c.op? operand n e rest = .ok (e, rest) := by
  cases rest with
  | nil => cases n <;> rfl
  | cons t rest =>
    cases n with
    | zero => rfl
    | succ n =>
      cases hop : c.op? t.lexeme with
      | none => simp [Sql.chainFrom, hop]
      | some op =>
        have hlt := h t rfl
        rw [Chained.looseness_of_op? hop] at hlt
        exact absurd hlt (Nat.lt_irrefl _)

end Stops

/-! ## Levels -/

theorem lexemes_eq_append_iff {ts : List Token} {ls ms : List Lexeme} :
    lexemes ts = ls ++ ms ↔ ∃ us vs, ts = us ++ vs ∧ lexemes us = ls ∧ lexemes vs = ms :=
  List.map_eq_append_iff

theorem lexemes_eq_cons_iff {ts : List Token} {l : Lexeme} {ls : List Lexeme} :
    lexemes ts = l :: ls ↔ ∃ t us, ts = t :: us ∧ t.lexeme = l ∧ lexemes us = ls :=
  List.map_eq_cons_iff

theorem lexemes_eq_nil_iff {ts : List Token} : lexemes ts = [] ↔ ts = [] :=
  List.map_eq_nil_iff

/-- A reader takes the lexemes off the front as the expression, if what follows does not continue
them. -/
def Reads (read : Reader Expr) (p : Phrase) (ls : List Lexeme) (e : Expr) : Prop :=
  ∀ ts rest, lexemes ts = ls → Stops p rest → read (ts ++ rest) = .ok (e, rest)

/-- The reader of a chain goes on behind the lexemes as behind a first operand. -/
def Grows (read : Reader Expr) (c : Chained) (operand : Reader Expr) (ls : List Lexeme) (e : Expr) :
    Prop :=
  ∀ ts rest, lexemes ts = ls → Stops c.operand rest →
    ∃ n, rest.length ≤ n ∧ read (ts ++ rest) = chainFrom c.op? operand n e rest

section

variable {c : Chained} {operand : Reader Expr} {ls ms : List Lexeme} {e : Expr}

theorem Grows.reads (h : Grows (chain c.op? operand) c operand ls e) :
    Reads (chain c.op? operand) (.chain c) ls e := by
  intro ts rest hts hstops
  obtain ⟨n, -, hn⟩ := h ts rest hts (hstops.mono (Nat.le_of_lt c.looseness_operand))
  rw [hn, hstops.chainFrom]

theorem grows_first (h : Reads operand c.operand ls e) :
    Grows (chain c.op? operand) c operand ls e := by
  intro ts rest hts hstops
  refine ⟨rest.length, Nat.le_refl _, ?_⟩
  rw [chain, h ts rest hts hstops, ok_bind]

theorem grows_next {l : Lexeme} {op : BinaryOp} {left right : Expr}
    (hleft : Grows (chain c.op? operand) c operand ls left) (hop : c.op? l = some op)
    (hright : Reads operand c.operand ms right) :
    Grows (chain c.op? operand) c operand (ls ++ l :: ms) (.binary op left right) := by
  intro ts rest hts hstops
  obtain ⟨us, ws, rfl, hus, hws⟩ := lexemes_eq_append_iff.1 hts
  obtain ⟨t, vs, rfl, rfl, hvs⟩ := lexemes_eq_cons_iff.1 hws
  have hop' : Stops c.operand (t :: vs ++ rest) :=
    .cons (by rw [Chained.looseness_of_op? hop]; exact c.looseness_operand)
  obtain ⟨n, hn, hread⟩ := hleft us (t :: vs ++ rest) hus hop'
  cases n with
  | zero => simp at hn
  | succ n =>
    refine ⟨n, by simp at hn; omega, ?_⟩
    rw [List.append_assoc, hread, List.cons_append, chainFrom, hop]
    dsimp only
    rw [hright vs rest hvs hstops, ok_bind]

end

section

variable {src : List Char} {expr : Reader Expr} {ls : List Lexeme} {e : Expr}

theorem after?_ne {l : Lexeme} {t : Token} (h : t.lexeme ≠ l) (ts : List Token) :
    after? l (t :: ts) = none :=
  if_neg h

theorem after?_eq {l : Lexeme} {t : Token} (h : t.lexeme = l) (ts : List Token) :
    after? l (t :: ts) = some ts :=
  if_pos h

theorem afterKeyword?_eq {k : Keyword} {t : Token} (h : t.lexeme.isKeyword k = true)
    (ts : List Token) : afterKeyword? k (t :: ts) = some ts :=
  if_pos h

theorem afterKeyword?_ne {k : Keyword} {t : Token} (h : t.lexeme.isKeyword k = false)
    (ts : List Token) : afterKeyword? k (t :: ts) = none :=
  if_neg (by simp [Token.isKeyword, h])

/-- What a list of phrases begins with closes no parenthesis and is no star. -/
theorem begins_ne {l : Lexeme} (h : l.begins = true) : l ≠ .closeParen ∧ l ≠ .sign .star := by
  constructor <;> rintro rfl <;> cases h

/-- Parts of a list that begin as expressions do and are read as such. -/
def Listable (expr : Reader Expr) (part : List Lexeme × Expr) : Prop :=
  Reads expr .whole part.1 part.2 ∧ ∃ l tail, part.1 = l :: tail ∧ l.begins = true

theorem listed_cons (ls : List Lexeme) (parts : List (List Lexeme)) (trailing : Bool) :
    ∃ more, listed (ls :: parts) trailing = ls ++ more := by
  cases parts with
  | nil => exact ⟨_, listed_singleton ls trailing⟩
  | cons ms parts => exact ⟨_, listed_cons_cons ls ms parts trailing⟩

theorem itemsFrom_listed {parts : List (List Lexeme × Expr)} (hne : parts ≠ [])
    (hparts : ∀ part ∈ parts, Listable expr part) {trailing comma : Bool}
    (hcomma : comma = true → trailing = true) {ts : List Token}
    (hts : lexemes ts = listed (parts.map Prod.fst) comma) (rest : List Token) {wanted : Wanted}
    {n : Nat} (hn : parts.length ≤ n) :
    itemsFrom src wanted trailing expr n (ts ++ rest) = .ok (parts.map Prod.snd, rest) := by
  have stops {l : Lexeme} (hl : l = .comma ∨ l = .closeParen) {t : Token} (ht : t.lexeme = l)
      (rest : List Token) : Stops .whole (t :: rest) :=
    .cons (by rcases hl with rfl | rfl <;> rw [ht] <;> decide)
  induction parts generalizing ts n with
  | nil => exact (hne rfl).elim
  | cons part parts ih =>
    obtain ⟨⟨hread, -⟩, hmore⟩ := List.forall_mem_cons.1 hparts
    cases n with
    | zero => cases hn
    | succ n =>
    cases parts with
    | nil =>
      rw [List.map_cons, List.map_nil, listed_singleton] at hts
      obtain ⟨us, vs, rfl, hus, hvs⟩ := lexemes_eq_append_iff.1 hts
      cases comma with
      | false =>
        obtain ⟨t, ws, rfl, ht, hws⟩ := lexemes_eq_cons_iff.1 hvs
        obtain rfl := lexemes_eq_nil_iff.1 hws
        rw [itemsFrom, List.append_assoc, List.cons_append,
          hread us _ hus (stops (.inr rfl) ht _), ok_bind]
        simp [after?, ht]
        rfl
      | true =>
        obtain ⟨t, ws, rfl, ht, hws⟩ := lexemes_eq_cons_iff.1 hvs
        obtain ⟨u, ws, rfl, hu, hws⟩ := lexemes_eq_cons_iff.1 hws
        obtain rfl := lexemes_eq_nil_iff.1 hws
        rw [itemsFrom, List.append_assoc, List.cons_append,
          hread us _ hus (stops (.inl rfl) ht _), ok_bind]
        simp [after?, ht, hu, hcomma]
        rfl
    | cons next parts =>
      rw [List.map_cons, List.map_cons, listed_cons_cons] at hts
      obtain ⟨us, vs, rfl, hus, hvs⟩ := lexemes_eq_append_iff.1 hts
      obtain ⟨t, ws, rfl, ht, hws⟩ := lexemes_eq_cons_iff.1 hvs
      have hnext : after? .closeParen (ws ++ rest) = none := by
        obtain ⟨-, l, tail, hl, hbegins⟩ := hmore next List.mem_cons_self
        obtain ⟨more, hlisted⟩ := listed_cons next.1 (parts.map Prod.fst) comma
        rw [hlisted, hl] at hws
        obtain ⟨u, xs, rfl, rfl, -⟩ := lexemes_eq_cons_iff.1 hws
        exact after?_ne (begins_ne hbegins).1 _
      have hitems := ih (by simp) hmore hws (n := n) (by simpa using hn)
      rw [itemsFrom, List.append_assoc, List.cons_append, hread us _ hus (stops (.inl rfl) ht _),
        ok_bind]
      simp [after?_eq ht, hnext, hitems]

theorem length_le_length_listed (parts : List (List Lexeme)) (trailing : Bool) :
    parts.length ≤ (listed parts trailing).length := by
  induction parts with
  | nil => exact Nat.zero_le _
  | cons ls parts ih =>
    cases parts with
    | nil => simp; omega
    | cons ms parts =>
      simp only [listed_cons_cons, List.length_append, List.length_cons] at ih ⊢
      omega

theorem length_lt_length_listed {part : List Lexeme} {parts : List (List Lexeme)}
    (h : part ∈ parts) (trailing : Bool) : part.length < (listed parts trailing).length := by
  induction parts with
  | nil => cases h
  | cons ls parts ih =>
    rcases List.mem_cons.1 h with rfl | hmem
    · cases parts with
      | nil => simp
      | cons ms parts =>
        rw [listed_cons_cons, List.length_append, List.length_cons]
        omega
    · obtain ⟨ms, parts, rfl⟩ := List.exists_cons_of_ne_nil (List.ne_nil_of_mem hmem)
      have := ih hmem
      rw [listed_cons_cons, List.length_append, List.length_cons]
      omega

/-- A list that is not empty begins as its first part does. -/
theorem listed_begins {parts : List (List Lexeme × Expr)} (hne : parts ≠ [])
    (hparts : ∀ part ∈ parts, Listable expr part) (trailing : Bool) :
    ∃ l tail, listed (parts.map Prod.fst) trailing = l :: tail ∧ l.begins = true := by
  obtain ⟨part, parts, rfl⟩ := List.exists_cons_of_ne_nil hne
  obtain ⟨-, l, tail, hl, hbegins⟩ := hparts part List.mem_cons_self
  obtain ⟨more, hmore⟩ := listed_cons part.1 (parts.map Prod.fst) trailing
  exact ⟨l, tail ++ more, by rw [List.map_cons, hmore, hl, List.cons_append], hbegins⟩

theorem items_listed {parts : List (List Lexeme × Expr)} (hparts : ∀ part ∈ parts, Listable expr part)
    {trailing comma : Bool} (hcomma : comma = true → trailing = true ∧ parts ≠ []) {ts : List Token}
    (hts : lexemes ts = listed (parts.map Prod.fst) comma) (rest : List Token) {wanted : Wanted} :
    items src wanted trailing expr (ts ++ rest) = .ok (parts.map Prod.snd, rest) := by
  unfold items
  rcases eq_or_ne parts [] with rfl | hne
  · obtain rfl : comma = false := by
      by_contra hc
      exact (hcomma (by simpa using hc)).2 rfl
    obtain ⟨t, us, rfl, ht, hus⟩ := lexemes_eq_cons_iff.1 hts
    obtain rfl := lexemes_eq_nil_iff.1 hus
    simp [after?_eq ht]
  · have hlength := length_le_length_listed (parts.map Prod.fst) comma
    rw [List.length_map, ← hts, length_lexemes] at hlength
    obtain ⟨l, tail, hl, hbegins⟩ := listed_begins hne hparts comma
    obtain ⟨t, us, rfl, rfl, -⟩ := lexemes_eq_cons_iff.1 (hts.trans hl)
    rw [List.cons_append, after?_ne (begins_ne hbegins).1]
    dsimp only
    rw [← List.cons_append]
    exact itemsFrom_listed hne hparts (fun hc => (hcomma hc).1) hts rest
      (by rw [List.length_append]; omega)

/-! ## Primary expressions -/

theorem reads_number (digits : String) :
    Reads (primary src expr) .primary [.number digits] (.literal (numberLiteral digits)) := by
  intro ts rest hts _
  obtain ⟨t, us, rfl, ht, hus⟩ := lexemes_eq_cons_iff.1 hts
  obtain rfl := lexemes_eq_nil_iff.1 hus
  simp [primary, ht]

theorem reads_literal (s : String) :
    Reads (primary src expr) .primary [.literal s] (.literal (.str s)) := by
  intro ts rest hts _
  obtain ⟨t, us, rfl, ht, hus⟩ := lexemes_eq_cons_iff.1 hts
  obtain rfl := lexemes_eq_nil_iff.1 hus
  simp [primary, ht]

theorem reads_word {w : String} {x : Scalar} (h : wordLiteral? w = some x) :
    Reads (primary src expr) .primary [.name w] (.literal x) := by
  intro ts rest hts _
  obtain ⟨t, us, rfl, ht, hus⟩ := lexemes_eq_cons_iff.1 hts
  obtain rfl := lexemes_eq_nil_iff.1 hus
  simp [primary, ht, named, h]

theorem wordLiteral?_of_isReserved {w : String} (h : Keyword.isReserved w = false) :
    wordLiteral? w = none := by
  unfold wordLiteral?
  rw [Option.isNone_iff_eq_none.1 (Option.isSome_eq_false_iff.1 h)]

theorem reads_column {w : String} (h : Keyword.isReserved w = false) :
    Reads (primary src expr) .primary [.name w] (.column w) := by
  intro ts rest hts hstops
  obtain ⟨t, us, rfl, ht, hus⟩ := lexemes_eq_cons_iff.1 hts
  obtain rfl := lexemes_eq_nil_iff.1 hus
  simp [primary, ht, named, wordLiteral?_of_isReserved h, hstops.after?_openParen, h]

theorem reads_countStar {w : String} (h : Text.upper w = "COUNT") :
    Reads (primary src expr) .primary [.name w, .openParen, .sign .star, .closeParen] .countStar := by
  intro ts rest hts _
  obtain ⟨t, us, rfl, ht, hts⟩ := lexemes_eq_cons_iff.1 hts
  obtain ⟨u, us, rfl, hu, hts⟩ := lexemes_eq_cons_iff.1 hts
  obtain ⟨v, us, rfl, hv, hts⟩ := lexemes_eq_cons_iff.1 hts
  obtain ⟨z, us, rfl, hz, hts⟩ := lexemes_eq_cons_iff.1 hts
  obtain rfl := lexemes_eq_nil_iff.1 hts
  have hnext (k : Keyword) (ts : List Token) : nextIsKeyword k (v :: ts) = false := by
    rw [nextIsKeyword_eq_false]
    rintro _ ⟨⟩
    rw [hv]
    rfl
  simp [primary, ht, named, wordLiteral?_count h, after?_eq hu, callBody, hnext, after?_eq hv,
    after?_eq hz, h]

theorem nextIsKeyword_append {k : Keyword} {ts : List Token} (hne : ts ≠ [])
    (h : NotFirst k (lexemes ts)) (rest : List Token) : nextIsKeyword k (ts ++ rest) = false := by
  obtain ⟨t, ts, rfl⟩ := List.exists_cons_of_ne_nil hne
  exact nextIsKeyword_eq_false.2 fun l hl => h l hl

theorem reads_call {w : String} {parts : List (List Lexeme × Expr)} (hw : wordLiteral? w = none)
    (hdistinct : NotFirst .distinct (listed (parts.map Prod.fst) false))
    (hselect : NotFirst .select (listed (parts.map Prod.fst) false))
    (hparts : ∀ part ∈ parts, Listable expr part) :
    Reads (primary src expr) .primary (.name w :: .openParen :: listed (parts.map Prod.fst) false)
      (.call (Text.upper w) (parts.map Prod.snd)) := by
  intro ts rest hts _
  obtain ⟨t, us, rfl, ht, hts⟩ := lexemes_eq_cons_iff.1 hts
  obtain ⟨u, us, rfl, hu, hus⟩ := lexemes_eq_cons_iff.1 hts
  have hstar : after? (.sign .star) (us ++ rest) = none := by
    rcases eq_or_ne parts [] with rfl | hne
    · obtain ⟨v, vs, rfl, hv, -⟩ := lexemes_eq_cons_iff.1 hus
      exact after?_ne (by simp [hv]) _
    · obtain ⟨l, tail, hl, hbegins⟩ := listed_begins hne hparts false
      obtain ⟨v, vs, rfl, rfl, -⟩ := lexemes_eq_cons_iff.1 (hus.trans hl)
      exact after?_ne (begins_ne hbegins).2 _
  have hne : us ≠ [] := by
    rintro rfl
    simp [listed] at hus
  rw [← hus] at hdistinct hselect
  have hitems : items src .moreArguments false expr (us ++ rest) = .ok (parts.map Prod.snd, rest) :=
    items_listed hparts (by simp) hus rest
  simp [primary, ht, named, hw, after?_eq hu, callBody, nextIsKeyword_append hne hdistinct,
    nextIsKeyword_append hne hselect, hstar, hitems]

theorem reads_parens (h : Reads expr .whole ls e) (hne : ls ≠ []) (hselect : NotFirst .select ls) :
    Reads (primary src expr) .primary (.openParen :: ls ++ [.closeParen]) e := by
  intro ts rest hts _
  obtain ⟨t, ws, rfl, ht, hws⟩ := lexemes_eq_cons_iff.1 hts
  obtain ⟨us, vs, rfl, hus, hvs⟩ := lexemes_eq_append_iff.1 hws
  obtain ⟨v, vs, rfl, hv, hvs⟩ := lexemes_eq_cons_iff.1 hvs
  obtain rfl := lexemes_eq_nil_iff.1 hvs
  have hus' : us ≠ [] := by
    rintro rfl
    exact hne hus.symm
  rw [← hus] at hselect
  have hclose : Stops .whole (v :: rest) := .cons (by rw [hv]; decide)
  have hread := h us (v :: rest) hus hclose
  simp [primary, ht, nextIsKeyword_append hus' hselect, hread, after?_eq hv]
  rfl

/-! ## The other levels -/

theorem reads_unsigned {operand : Reader Expr} (h : Reads operand .primary ls e)
    (hsign : ∃ l tail, ls = l :: tail ∧ ∀ s, l ≠ .sign s) : Reads (signed operand) .signed ls e := by
  intro ts rest hts hstops
  have hread := h ts rest hts hstops
  obtain ⟨l, tail, rfl, hl⟩ := hsign
  obtain ⟨t, us, rfl, rfl, -⟩ := lexemes_eq_cons_iff.1 hts
  rw [List.cons_append] at hread ⊢
  unfold signed
  split
  · next hminus => exact absurd hminus (hl _)
  · next hplus => exact absurd hplus (hl _)
  · exact hread

theorem reads_minus {operand : Reader Expr} (h : Reads (signed operand) .signed ls e) :
    Reads (signed operand) .signed (.sign .minus :: ls) (negated e) := by
  intro ts rest hts hstops
  obtain ⟨t, us, rfl, ht, hus⟩ := lexemes_eq_cons_iff.1 hts
  simp [signed, ht, h us rest hus hstops]

theorem reads_plus {operand : Reader Expr} (h : Reads (signed operand) .signed ls e) :
    Reads (signed operand) .signed (.sign .plus :: ls) e := by
  intro ts rest hts hstops
  obtain ⟨t, us, rfl, ht, hus⟩ := lexemes_eq_cons_iff.1 hts
  simp [signed, ht, h us rest hus hstops]

theorem reads_positive {operand : Reader Expr} (h : Reads operand .comparison ls e) (hne : ls ≠ [])
    (hnot : NotFirst .not ls) : Reads (negation operand) .negation ls e := by
  intro ts rest hts hstops
  have hread := h ts rest hts hstops
  obtain ⟨l, tail, rfl⟩ := List.exists_cons_of_ne_nil hne
  obtain ⟨t, us, rfl, rfl, -⟩ := lexemes_eq_cons_iff.1 hts
  rw [List.cons_append] at hread ⊢
  rw [negation, if_neg (by simp [Token.isKeyword, hnot t.lexeme rfl]), hread]

theorem reads_not {operand : Reader Expr} {l : Lexeme} (hl : l.isKeyword .not = true)
    (h : Reads (negation operand) .negation ls e) :
    Reads (negation operand) .negation (l :: ls) (.not e) := by
  intro ts rest hts hstops
  obtain ⟨t, us, rfl, rfl, hus⟩ := lexemes_eq_cons_iff.1 hts
  have ht : t.isKeyword .not = true := hl
  simp [negation, ht, h us rest hus hstops]

variable {sum : Reader Expr} {ms : List Lexeme} {left right : Expr}

theorem reads_bare (h : Reads sum (.chain .sum) ls e) :
    Reads (comparison src expr sum) .comparison ls e := by
  intro ts rest hts hstops
  have hread := h ts rest hts (hstops.mono (by decide))
  rw [comparison, hread, ok_bind]
  dsimp only
  rw [hstops.afterKeyword? (.inl rfl), hstops.membership?]
  cases rest with
  | nil => rfl
  | cons t rest =>
    dsimp only
    rw [hstops.comparisonOp?]
    rfl

theorem reads_compared {l : Lexeme} {op : BinaryOp} (hleft : Reads sum (.chain .sum) ls left)
    (hop : comparisonOp? l = some op) (hright : Reads sum (.chain .sum) ms right) :
    Reads (comparison src expr sum) .comparison (ls ++ l :: ms) (.binary op left right) := by
  intro ts rest hts hstops
  obtain ⟨us, ws, rfl, hus, hws⟩ := lexemes_eq_append_iff.1 hts
  obtain ⟨t, vs, rfl, rfl, hvs⟩ := lexemes_eq_cons_iff.1 hws
  have hkeyword (k : Keyword) : t.lexeme.isKeyword k = false := by
    cases ht : t.lexeme with
    | name s =>
      rw [ht] at hop
      cases hop
    | _ => rfl
  have hbehind : Stops (.chain .sum) (t :: vs ++ rest) :=
    .cons (by rw [Lexeme.looseness_of_comparisonOp? hop]; decide)
  rw [comparison, List.append_assoc, hleft us _ hus hbehind, ok_bind]
  dsimp only
  rw [List.cons_append, membership?, afterKeyword?_ne (hkeyword _), afterKeyword?_ne (hkeyword _),
    afterKeyword?_ne (hkeyword _)]
  dsimp only [Option.bind_none, Option.map_none]
  rw [hop]
  dsimp only
  rw [hright vs rest hvs (hstops.mono (by decide)), ok_bind]
  rfl

theorem isKeyword_eq_false {l : Lexeme} {j k : Keyword} (h : l.isKeyword j = true) (hne : j ≠ k) :
    l.isKeyword k = false := by
  by_contra hk
  exact hne (Lexeme.isKeyword_unique h (by simpa using hk))

/-- A sum ends in front of the words of a test. -/
theorem stops_of_isKeyword {t : Token} {k : Keyword} (hk : k = .is ∨ k = .in ∨ k = .not)
    (ht : t.lexeme.isKeyword k = true) (rest : List Token) : Stops (.chain .sum) (t :: rest) :=
  .cons (by rw [Lexeme.looseness_of_isKeyword ht, if_pos hk]; decide)

theorem reads_isNull {ns : List Lexeme} {l m : Lexeme} {negated : Bool}
    (h : Reads sum (.chain .sum) ls e) (hl : l.isKeyword .is = true) (hn : NotWord negated ns)
    (hm : m.isKeyword .null = true) :
    Reads (comparison src expr sum) .comparison (ls ++ l :: ns ++ [m]) (.isNull e negated) := by
  intro ts rest hts _
  rw [List.append_assoc] at hts
  obtain ⟨us, behind, rfl, hus, hbehind⟩ := lexemes_eq_append_iff.1 hts
  obtain ⟨t, ws, rfl, rfl, hws⟩ := lexemes_eq_cons_iff.1 hbehind
  have htest : nullTest src e (ws ++ rest) = .ok (.isNull e negated, rest) := by
    cases hn with
    | absent =>
      obtain ⟨v, vs, rfl, rfl, hvs⟩ := lexemes_eq_cons_iff.1 hws
      obtain rfl := lexemes_eq_nil_iff.1 hvs
      have hnot : nextIsKeyword .not (v :: rest) = false := isKeyword_eq_false hm (by decide)
      simp [nullTest, hnot, afterKeyword?_eq hm]
    | present hn =>
      obtain ⟨n, last, rfl, rfl, hlast⟩ := lexemes_eq_cons_iff.1 hws
      obtain ⟨v, vs, rfl, rfl, hvs⟩ := lexemes_eq_cons_iff.1 hlast
      obtain rfl := lexemes_eq_nil_iff.1 hvs
      have hnot : nextIsKeyword .not (n :: v :: rest) = true := hn
      simp [nullTest, hnot, afterKeyword?_eq hm]
  rw [comparison, List.append_assoc, List.cons_append,
    h us _ hus (stops_of_isKeyword (.inl rfl) hl _), ok_bind]
  dsimp only
  rw [afterKeyword?_eq hl]
  exact htest

/-- The words of a membership test end a sum and are found behind it. -/
theorem ends_of_membership {negated : Bool} {words : List Token} {t : Token}
    (hn : NotWord negated (lexemes words)) (ht : t.lexeme.isKeyword .in = true) (rest : List Token) :
    Stops (.chain .sum) (words ++ t :: rest) ∧ afterKeyword? .is (words ++ t :: rest) = none ∧
      membership? (words ++ t :: rest) = some (negated, rest) := by
  generalize hwords : lexemes words = ns at hn
  cases hn with
  | absent =>
    obtain rfl := lexemes_eq_nil_iff.1 hwords
    refine ⟨stops_of_isKeyword (.inr (.inl rfl)) ht _,
      afterKeyword?_ne (isKeyword_eq_false ht (by decide)) _, ?_⟩
    have hnot : t.lexeme.isKeyword .not = false := isKeyword_eq_false ht (by decide)
    simp [membership?, afterKeyword?_ne hnot, afterKeyword?_eq ht]
  | present hn =>
    obtain ⟨n, others, rfl, rfl, hothers⟩ := lexemes_eq_cons_iff.1 hwords
    obtain rfl := lexemes_eq_nil_iff.1 hothers
    refine ⟨stops_of_isKeyword (.inr (.inr rfl)) hn _,
      afterKeyword?_ne (isKeyword_eq_false hn (by decide)) _, ?_⟩
    simp [membership?, afterKeyword?_eq hn, afterKeyword?_eq ht]

theorem reads_inList {ns : List Lexeme} {l : Lexeme} {negated trailing : Bool}
    {parts : List (List Lexeme × Expr)} (h : Reads sum (.chain .sum) ls e) (hn : NotWord negated ns)
    (hl : l.isKeyword .in = true)
    (hselect : NotFirst .select (listed (parts.map Prod.fst) trailing))
    (htrailing : trailing = true → parts ≠ []) (hparts : ∀ part ∈ parts, Listable expr part) :
    Reads (comparison src expr sum) .comparison
      (ls ++ ns ++ l :: .openParen :: listed (parts.map Prod.fst) trailing)
      (.inList e (parts.map Prod.snd) negated) := by
  intro ts rest hts _
  rw [List.append_assoc] at hts
  obtain ⟨us, behind, rfl, hus, hbehind⟩ := lexemes_eq_append_iff.1 hts
  obtain ⟨words, test, rfl, hwords, htest⟩ := lexemes_eq_append_iff.1 hbehind
  obtain ⟨t, list, rfl, rfl, hlist⟩ := lexemes_eq_cons_iff.1 htest
  obtain ⟨u, vs, rfl, hu, hvs⟩ := lexemes_eq_cons_iff.1 hlist
  have hitems : memberList src expr (u :: (vs ++ rest)) = .ok (parts.map Prod.snd, rest) := by
    have hne : vs ≠ [] := by
      rintro rfl
      simp [listed] at hvs
    have hselect : nextIsKeyword .select (vs ++ rest) = false :=
      nextIsKeyword_append hne (by rwa [hvs]) rest
    have hitems : items src .moreInList true expr (vs ++ rest) = .ok (parts.map Prod.snd, rest) :=
      items_listed hparts (fun hc => ⟨rfl, htrailing hc⟩) hvs rest
    simp [memberList, after?_eq hu, hselect, hitems]
  rw [← hwords] at hn
  obtain ⟨hstops, his, hmember⟩ := ends_of_membership hn hl (u :: (vs ++ rest))
  rw [comparison, List.append_assoc, List.append_assoc, List.cons_append, List.cons_append,
    h us _ hus hstops, ok_bind]
  dsimp only
  rw [his, hmember]
  dsimp only
  rw [hitems]
  rfl

end

/-! ## Derivations -/

variable {src : List Char} {p : Phrase} {ls : List Lexeme} {e : Expr}

/-- A level takes the lexemes, with at most `n` parentheses inside one another; a chain goes on
behind them. -/
def Taken (src : List Char) (n : Nat) : Phrase → List Lexeme → Expr → Prop
  | .chain c, ls, e =>
    Grows (chain c.op? (levelReader src (exprWithin src n) c.operand)) c
      (levelReader src (exprWithin src n) c.operand) ls e
  | p, ls, e => Reads (levelReader src (exprWithin src n) p) p ls e

theorem Taken.reads {n : Nat} (h : Taken src n p ls e) :
    Reads (levelReader src (exprWithin src n) p) p ls e := by
  cases p with
  | chain c =>
    rw [levelReader_chain]
    exact Grows.reads h
  | _ => exact h

/-- A phrase that stands in parentheses is read one level of parentheses down. -/
theorem reads_exprWithin (h : ∀ n, ls.length ≤ n + 1 → Taken src n .whole ls e) {n : Nat}
    (hpos : 0 < n) (hn : ls.length ≤ n) : Reads (exprWithin src n) .whole ls e := by
  obtain ⟨n, rfl⟩ := Nat.exists_eq_succ_of_ne_zero (Nat.ne_of_gt hpos)
  exact (h n hn).reads

theorem Derives.not_sign (h : Derives .primary ls e) :
    ∃ l tail, ls = l :: tail ∧ ∀ s, l ≠ .sign s := by
  cases h <;> exact ⟨_, _, rfl, nofun⟩

theorem Derives.ne_nil (h : Derives p ls e) : ls ≠ [] := by
  obtain ⟨l, tail, rfl, -⟩ := h.exists_cons
  exact List.cons_ne_nil l tail

/-- The parts of a list, each of them shorter than the list. -/
theorem listable_of_taken (trailing : Bool) {parts : List (List Lexeme × Expr)} {n : Nat}
    (hderives : ∀ part ∈ parts, Derives .whole part.1 part.2)
    (h : ∀ part ∈ parts, ∀ n, part.1.length ≤ n + 1 → Taken src n .whole part.1 part.2)
    (hn : (listed (parts.map Prod.fst) trailing).length ≤ n) :
    ∀ part ∈ parts, Listable (exprWithin src n) part := by
  intro part hmem
  have hlt := length_lt_length_listed (List.mem_map_of_mem (f := Prod.fst) hmem) trailing
  exact ⟨reads_exprWithin (h part hmem) (by omega) (by omega), (hderives part hmem).exists_cons⟩

theorem Derives.taken (h : Derives p ls e) : ∀ n, ls.length ≤ n + 1 → Taken src n p ls e := by
  induction h with
  | number digits => exact fun _ _ => reads_number digits
  | literal s => exact fun _ _ => reads_literal s
  | word h => exact fun _ _ => reads_word h
  | column h => exact fun _ _ => reads_column h
  | countStar h => exact fun _ _ => reads_countStar h
  | call hw hdistinct hselect hparts ih =>
    intro n hn
    simp only [List.length_cons] at hn
    exact reads_call hw hdistinct hselect
      (listable_of_taken false hparts ih (by omega))
  | parens hselect h ih =>
    intro n hn
    simp only [List.length_cons, List.length_append, List.length_nil] at hn
    exact reads_parens (reads_exprWithin ih (by omega) (by omega)) h.ne_nil hselect
  | unsigned h ih => exact fun n hn => reads_unsigned (ih n hn) h.not_sign
  | minus _ ih => exact fun n hn => reads_minus (ih n (Nat.le_of_succ_le hn))
  | plus _ ih => exact fun n hn => reads_plus (ih n (Nat.le_of_succ_le hn))
  | first _ ih => exact fun n hn => grows_first (ih n hn).reads
  | next _ hop _ ihleft ihright =>
    intro n hn
    simp only [List.length_cons, List.length_append] at hn
    exact grows_next (ihleft n (by omega)) hop (ihright n (by omega)).reads
  | bare _ ih => exact fun n hn => reads_bare (ih n hn).reads
  | compared _ hop _ ihleft ihright =>
    intro n hn
    simp only [List.length_cons, List.length_append] at hn
    exact reads_compared (ihleft n (by omega)).reads hop (ihright n (by omega)).reads
  | isNull _ hl hns hm ih =>
    intro n hn
    simp only [List.length_cons, List.length_append] at hn
    exact reads_isNull (ih n (by omega)).reads hl hns hm
  | @inList _ _ _ _ _ trailing _ _ hns hl hselect htrailing hparts ih ihparts =>
    intro n hn
    simp only [List.length_cons, List.length_append] at hn
    exact reads_inList (ih n (by omega)).reads hns hl hselect htrailing
      (listable_of_taken trailing hparts ihparts (by omega))
  | positive hnot h ih => exact fun n hn => reads_positive (ih n hn) h.ne_nil hnot
  | not hl _ ih => exact fun n hn => reads_not hl (ih n (Nat.le_of_succ_le hn))

/-- A derived expression is read off the front, whatever stops it behind. -/
theorem Derives.expression (h : Derives .whole ls e) : Reads (expression src) .whole ls e := by
  intro ts rest hts hstops
  have hlength : ls.length ≤ (ts ++ rest).length := by
    rw [← hts, length_lexemes, List.length_append]
    exact Nat.le_add_right _ _
  have hpos : 0 < ls.length := List.length_pos_iff.2 h.ne_nil
  exact reads_exprWithin h.taken (by omega) hlength ts rest hts hstops

end TableQuery.Sql

namespace TableQuery.Expr

open Sql

/-- A text is read as an expression exactly if its lexemes derive the expression. -/
theorem parse_eq_ok_iff {text : String} {e : Expr} :
    parse text = .ok e ↔ ∃ ls, Lexes text.toList ls [] ∧ Derives .whole ls e := by
  constructor
  · intro h
    obtain ⟨ts, hts, hread⟩ := bind_eq_ok.1 h
    obtain ⟨⟨e', rest⟩, hread, hall⟩ := bind_eq_ok.1 hread
    obtain ⟨front, rfl, he⟩ := sound_expression _ _ _ hread
    dsimp only at hall
    split at hall
    · next hrest =>
      cases hall
      obtain rfl := List.isEmpty_iff.1 hrest
      rw [List.append_nil] at hts
      exact ⟨lexemes front, lexes_of_tokensFrom hts, he⟩
    · cases hall
  · rintro ⟨ls, hls, he⟩
    obtain ⟨ts, hts, rfl⟩ := hls.tokensFrom 0
    have hread : expression text.toList (ts ++ []) = .ok (e, []) :=
      he.expression ts [] rfl (.nil _)
    rw [List.append_nil] at hread
    rw [parse, tokenize, hts, ok_bind, hread]
    rfl

end TableQuery.Expr
