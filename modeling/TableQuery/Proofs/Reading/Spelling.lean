import TableQuery.Proofs.Success
import TableQuery.Sql.Lexer

/-!
# Lexemes and their spelling

What the tokens of a text say does not depend on where they stand. Each lexeme has its spellings,
and a spelling counts only with the text behind it, since a token is the longest that begins at its
place. Scanning gives exactly the spelled lexemes; a text that is cut behind a token keeps the
tokens in front of the cut, and so does the part of a text from one token to another.
-/

namespace TableQuery.Sql

/-- What tokens say, without their places. -/
def lexemes (ts : List Token) : List Lexeme :=
  ts.map Token.lexeme

@[simp]
theorem lexemes_nil : lexemes [] = [] :=
  rfl

@[simp]
theorem lexemes_cons (t : Token) (ts : List Token) : lexemes (t :: ts) = t.lexeme :: lexemes ts :=
  rfl

@[simp]
theorem lexemes_append (ts us : List Token) : lexemes (ts ++ us) = lexemes ts ++ lexemes us :=
  List.map_append

@[simp]
theorem length_lexemes (ts : List Token) : (lexemes ts).length = ts.length :=
  List.length_map _

/-- A character as it is written between quotes: the quote itself twice. -/
def doubled (quote c : Char) : List Char :=
  if c = quote then [quote, quote] else [c]

/-- A lexeme, characters that spell it, and the text behind them, which does not make it longer. -/
inductive Spelled : Lexeme → List Char → List Char → Prop where
  | sign {l : Lexeme} {spelling rest : List Char}
      (h : scanSign? (spelling ++ rest) = some ⟨l, spelling, rest⟩) : Spelled l spelling rest
  | literal {quote : Char} {content rest : List Char} (hq : quote = '\'' ∨ quote = '"')
      (hrest : ∀ c ∈ rest.head?, c ≠ quote) :
      Spelled (.literal (String.ofList content))
        (quote :: (content.flatMap (doubled quote) ++ [quote])) rest
  | quoted {content rest : List Char} (h : ∀ c ∈ content, c ≠ '\x60') :
      Spelled (.name (String.ofList content)) ('\x60' :: content ++ ['\x60']) rest
  | whole {digits rest : List Char} (hne : digits ≠ []) (hd : ∀ c ∈ digits, c.isDigit = true)
      (hrest : ∀ c ∈ rest.head?, c.isDigit = false)
      (hpoint : ∀ c cs, rest = '.' :: c :: cs → c.isDigit = false) :
      Spelled (.number (String.ofList digits)) digits rest
  | point {digits places rest : List Char} (hne : digits ≠ []) (hne' : places ≠ [])
      (hd : ∀ c ∈ digits, c.isDigit = true) (hp : ∀ c ∈ places, c.isDigit = true)
      (hrest : ∀ c ∈ rest.head?, c.isDigit = false) :
      Spelled (.number (String.ofList (digits ++ '.' :: places))) (digits ++ '.' :: places) rest
  | bare {c : Char} {tail rest : List Char} (hc : beginsName c = true)
      (htail : ∀ d ∈ tail, continuesName (c == '@') d = true)
      (hrest : ∀ d ∈ rest.head?, continuesName (c == '@') d = false) :
      Spelled (.name (String.ofList (c :: tail))) (c :: tail) rest

section

variable {α : Type} {p : α → Bool} {xs rest : List α}

/-- A run that what follows does not continue is taken whole. -/
theorem takeWhile_of_stop (h : ∀ x ∈ xs, p x = true) (hrest : ∀ x ∈ rest.head?, p x = false) :
    (xs ++ rest).takeWhile p = xs := by
  rw [List.takeWhile_append_of_pos h]
  cases rest with
  | nil => simp
  | cons y ys => simp [hrest y rfl]

theorem dropWhile_of_stop (h : ∀ x ∈ xs, p x = true) (hrest : ∀ x ∈ rest.head?, p x = false) :
    (xs ++ rest).dropWhile p = rest := by
  rw [List.dropWhile_append_of_pos h]
  cases rest with
  | nil => rfl
  | cons y ys => simp [hrest y rfl]

theorem head?_dropWhile (p : α → Bool) (xs : List α) :
    ∀ x ∈ (xs.dropWhile p).head?, p x = false := by
  intro x hx
  have h := List.head?_dropWhile_not p xs
  rw [Option.mem_def.1 hx] at h
  exact h

theorem of_mem_takeWhile {x : α} (h : x ∈ xs.takeWhile p) : p x = true :=
  List.all_eq_true.1 List.all_takeWhile x h

/-- What begins the front of a list begins the list. -/
theorem mem_head?_of_front {rest' : List α} (h : rest' <+: rest) {x : α} (hx : x ∈ rest'.head?) :
    x ∈ rest.head? := by
  obtain ⟨more, rfl⟩ := h
  cases rest' with
  | nil => cases hx
  | cons y ys => exact hx

end

/-! ## One token -/

/-- The characters with which a sign can begin. -/
def signCharacters : List Char :=
  ['=', '!', '<', '>', '+', '-', '*', '/', '%', '(', ')', ',', ';']

theorem scanSign?_eq_none {c : Char} (h : c ∉ signCharacters) (cs : List Char) :
    scanSign? (c :: cs) = none := by
  unfold scanSign?
  split <;> simp_all [signCharacters]

theorem mem_signCharacters {spelling rest : List Char} {l : Lexeme}
    (h : scanSign? (spelling ++ rest) = some ⟨l, spelling, rest⟩) :
    ∃ c tail, spelling = c :: tail ∧ c ∈ signCharacters := by
  obtain ⟨-, hne⟩ := scanSign?_eq h
  obtain ⟨c, tail, rfl⟩ := List.exists_cons_of_ne_nil hne
  refine ⟨c, tail, rfl, ?_⟩
  by_contra hc
  rw [List.cons_append, scanSign?_eq_none hc] at h
  cases h

theorem isBlank_of_bounds {c : Char} (h₁ : 33 ≤ c.toNat) (h₂ : c.toNat ≤ 126) :
    Text.isBlank c = false := by
  simp only [Text.isBlank, Bool.or_eq_false_iff, Bool.and_eq_false_iff, beq_eq_false_iff_ne,
    decide_eq_false_iff_not]
  omega

theorem bounds_of_isDigit {c : Char} (h : c.isDigit = true) : 48 ≤ c.toNat ∧ c.toNat ≤ 57 := by
  simpa [Char.isDigit, UInt32.le_iff_toNat_le] using h

theorem bounds_of_isAlpha {c : Char} (h : c.isAlpha = true) : 65 ≤ c.toNat ∧ c.toNat ≤ 122 := by
  obtain hupper | hlower := Bool.or_eq_true_iff.1 h
  · have hbounds : 65 ≤ c.val ∧ c.val ≤ 90 := of_decide_eq_true hupper
    simp only [UInt32.le_iff_toNat_le, Char.toNat_val] at hbounds
    exact ⟨hbounds.1, Nat.le_trans hbounds.2 (by decide)⟩
  · obtain ⟨h₁, h₂⟩ := Bool.and_eq_true_iff.1 hlower
    have hbounds : 97 ≤ c.val ∧ c.val ≤ 122 := ⟨of_decide_eq_true h₁, of_decide_eq_true h₂⟩
    simp only [UInt32.le_iff_toNat_le, Char.toNat_val] at hbounds
    exact ⟨Nat.le_trans (by decide) hbounds.1, hbounds.2⟩

theorem bounds_of_beginsName {c : Char} (h : beginsName c = true) :
    64 ≤ c.toNat ∧ c.toNat ≤ 122 := by
  simp only [beginsName, Bool.or_eq_true, beq_iff_eq] at h
  rcases h with (h | rfl) | rfl
  · have := bounds_of_isAlpha h
    omega
  · decide
  · decide

/-- What a list of characters lacks by a test is not in it. -/
theorem not_mem_of_test {test : Char → Bool} {c : Char} (hc : test c = true) {cs : List Char}
    (h : cs.all (fun d => !test d) = true) : c ∉ cs := by
  intro hmem
  simpa [hc] using List.all_eq_true.1 h c hmem

/-- A scanned literal has its quotes doubled, and no quote behind it. -/
theorem doubled_of_scanLiteral {quote : Char} {cs content spelling rest : List Char}
    (h : scanLiteral quote cs = some (content, spelling, rest)) :
    spelling = content.flatMap (doubled quote) ++ [quote] ∧ ∀ c ∈ rest.head?, c ≠ quote := by
  fun_induction scanLiteral quote cs generalizing content spelling with
  | case1 => cases h
  | case2 c cs hc ih =>
    obtain ⟨⟨a, b, r⟩, hu, he⟩ := Option.map_eq_some_iff.1 h
    cases he
    obtain ⟨rfl, hrest⟩ := ih hu
    exact ⟨by simp [doubled, hc], hrest⟩
  | case3 c hc =>
    cases h
    exact ⟨by simpa using hc, by simp⟩
  | case4 c hc ds ih =>
    obtain ⟨⟨a, b, r⟩, hu, he⟩ := Option.map_eq_some_iff.1 h
    cases he
    obtain ⟨rfl, hrest⟩ := ih hu
    exact ⟨by simp [doubled], hrest⟩
  | case5 c hc d ds hd =>
    cases h
    exact ⟨by simpa using hc, by simpa using hd⟩

theorem scanLiteral_doubled {quote : Char} {rest : List Char} (hrest : ∀ c ∈ rest.head?, c ≠ quote)
    (content : List Char) :
    scanLiteral quote (content.flatMap (doubled quote) ++ quote :: rest) =
      some (content, content.flatMap (doubled quote) ++ [quote], rest) := by
  induction content with
  | nil =>
    cases rest with
    | nil => simp [scanLiteral]
    | cons d ds => simp [scanLiteral, hrest d rfl]
  | cons c cs ih =>
    rw [List.flatMap_cons, List.append_assoc]
    by_cases hc : c = quote
    · simp [doubled, scanLiteral, hc, ih]
    · rw [show doubled quote c = [c] from if_neg hc, List.singleton_append, scanLiteral.eq_def]
      simp [hc, ih]

theorem Spelled.of_scanNumber {c : Char} {cs digits rest : List Char} (hc : c.isDigit = true)
    (h : scanNumber (c :: cs) = (digits, rest)) :
    Spelled (.number (String.ofList digits)) digits rest := by
  have hne : (c :: cs).takeWhile Char.isDigit ≠ [] := by simp [hc]
  have hdigits : ∀ d ∈ (c :: cs).takeWhile Char.isDigit, d.isDigit = true :=
    fun _ => of_mem_takeWhile
  have hstop := head?_dropWhile Char.isDigit (c :: cs)
  unfold scanNumber at h
  split at h
  · next d ds hd =>
    split at h
    · next hplace =>
      cases h
      exact .point hne (by simp [hplace]) hdigits (fun _ => of_mem_takeWhile) (head?_dropWhile _ _)
    · next hplace =>
      cases h
      rw [hd] at hstop
      refine .whole hne hdigits hstop ?_
      rintro _ _ ⟨⟩
      simpa using hplace
  · next hnone =>
    cases h
    exact .whole hne hdigits hstop fun d ds hds => (hnone d ds hds).elim

/-- A scanned token is spelled by the characters it covers. -/
theorem Spelled.of_scan {offset : Nat} {c : Char} {cs : List Char} {s : Scanned}
    (h : scan offset c cs = .ok s) : Spelled s.lexeme s.spelling s.rest := by
  have hcs := (scan_eq h).1
  unfold scan at h
  split at h
  · next hs =>
    cases h
    exact .sign (by rw [hcs]; exact hs)
  split at h
  · cases h
  split at h
  · next hq =>
    split at h
    · next hl =>
      cases h
      obtain ⟨rfl, hrest⟩ := doubled_of_scanLiteral hl
      exact .literal hq hrest
    · cases h
  split at h
  · next hq =>
    split at h
    · cases h
    · next closing rest hd =>
      cases h
      have closes : closing = '\x60' := by
        simpa using head?_dropWhile (· ≠ '\x60') cs closing (by rw [hd]; rfl)
      subst hq closes
      exact .quoted fun d hd => by simpa using of_mem_takeWhile hd
  split at h
  · next hdigit =>
    cases h
    exact .of_scanNumber hdigit rfl
  split at h
  · next hname =>
    cases h
    exact .bare hname (fun _ => of_mem_takeWhile) (head?_dropWhile _ _)
  · cases h

theorem scanNumber_whole {digits rest : List Char} (hd : ∀ c ∈ digits, c.isDigit = true)
    (hrest : ∀ c ∈ rest.head?, c.isDigit = false)
    (hpoint : ∀ c cs, rest = '.' :: c :: cs → c.isDigit = false) :
    scanNumber (digits ++ rest) = (digits, rest) := by
  unfold scanNumber
  rw [takeWhile_of_stop hd hrest, dropWhile_of_stop hd hrest]
  split
  · simp [hpoint _ _ rfl]
  · rfl

theorem scanNumber_point {digits places rest : List Char} (hne : places ≠ [])
    (hd : ∀ c ∈ digits, c.isDigit = true) (hp : ∀ c ∈ places, c.isDigit = true)
    (hrest : ∀ c ∈ rest.head?, c.isDigit = false) :
    scanNumber (digits ++ '.' :: places ++ rest) = (digits ++ '.' :: places, rest) := by
  have hstop : ∀ c ∈ ('.' :: places ++ rest).head?, c.isDigit = false := by
    rintro _ ⟨⟩
    decide
  have htake := takeWhile_of_stop hp hrest
  have hdrop := dropWhile_of_stop hp hrest
  obtain ⟨c, cs, rfl⟩ := List.exists_cons_of_ne_nil hne
  unfold scanNumber
  rw [List.append_assoc, takeWhile_of_stop hd hstop, dropWhile_of_stop hd hstop]
  simp only [List.cons_append] at htake hdrop ⊢
  rw [if_pos (hp c List.mem_cons_self), htake, hdrop]

/-- A token that begins with none of the special characters is a number or a bare name. -/
theorem scan_of_plain {c : Char} (h : c ∉ signCharacters ++ ['\'', '"', '\x60']) (offset : Nat)
    (cs : List Char) :
    scan offset c cs =
      if c.isDigit then
        .ok ⟨.number (String.ofList (scanNumber (c :: cs)).1), (scanNumber (c :: cs)).1,
          (scanNumber (c :: cs)).2⟩
      else if beginsName c then
        .ok ⟨.name (String.ofList (c :: cs.takeWhile (continuesName (c == '@')))),
          c :: cs.takeWhile (continuesName (c == '@')), cs.dropWhile (continuesName (c == '@'))⟩
      else .error (.strayCharacter c offset) := by
  have hsign : c ∉ signCharacters := fun hc => h (List.mem_append_left _ hc)
  have hexclamation : c ≠ '!' := by
    rintro rfl
    exact hsign (by decide)
  have hquotes : c ∉ ['\'', '"', '\x60'] := fun hc => h (List.mem_append_right _ hc)
  simp only [List.mem_cons, List.not_mem_nil, or_false, not_or] at hquotes
  rw [scan, scanSign?_eq_none hsign]
  simp only [if_neg hexclamation, hquotes, or_self, if_false]

/-- A spelled lexeme is scanned, wherever it stands. -/
theorem Spelled.scan {l : Lexeme} {spelling rest : List Char} (h : Spelled l spelling rest)
    (offset : Nat) : ∃ c tail, spelling = c :: tail ∧ Text.isBlank c = false ∧
      Sql.scan offset c (tail ++ rest) = .ok ⟨l, spelling, rest⟩ := by
  have digit {c : Char} (hc : c.isDigit = true) : Text.isBlank c = false :=
    isBlank_of_bounds (by have := bounds_of_isDigit hc; omega)
      (by have := bounds_of_isDigit hc; omega)
  cases h with
  | sign h =>
    obtain ⟨c, tail, rfl, hc⟩ := mem_signCharacters h
    have hnone : signCharacters.all (fun c => !Text.isBlank c) = true := by decide
    have hblank : Text.isBlank c = false := by simpa using List.all_eq_true.1 hnone c hc
    refine ⟨c, tail, rfl, hblank, ?_⟩
    rw [List.cons_append] at h
    rw [Sql.scan, h]
  | @literal quote content rest hq hrest =>
    have hsign : scanSign? (quote :: (content.flatMap (doubled quote) ++ [quote] ++ rest)) = none :=
      scanSign?_eq_none (by rcases hq with rfl | rfl <;> decide) _
    have hne : quote ≠ '!' := by rcases hq with rfl | rfl <;> decide
    refine ⟨quote, _, rfl, by rcases hq with rfl | rfl <;> decide, ?_⟩
    rw [Sql.scan, hsign]
    simp only [if_neg hne, if_pos hq]
    rw [List.append_assoc, List.singleton_append, scanLiteral_doubled hrest]
  | @quoted content rest h =>
    have hfront : ∀ d ∈ content, decide (d ≠ '\x60') = true := by simpa using h
    have hstop : ∀ d ∈ ('\x60' :: rest).head?, decide (d ≠ '\x60') = false := by simp
    refine ⟨'\x60', _, rfl, by decide, ?_⟩
    rw [Sql.scan, scanSign?_eq_none (by decide)]
    simp only [List.append_eq, List.append_assoc, List.singleton_append, takeWhile_of_stop hfront hstop,
      dropWhile_of_stop hfront hstop]
    rfl
  | @whole digits rest hne hd hrest hpoint =>
    obtain ⟨c, tail, rfl⟩ := List.exists_cons_of_ne_nil hne
    have hc := hd c List.mem_cons_self
    refine ⟨c, tail, rfl, digit hc, ?_⟩
    rw [scan_of_plain (not_mem_of_test hc (by decide)), if_pos hc, ← List.cons_append,
      scanNumber_whole hd hrest hpoint]
  | @point digits places rest hne hne' hd hp hrest =>
    obtain ⟨c, tail, rfl⟩ := List.exists_cons_of_ne_nil hne
    have hc := hd c List.mem_cons_self
    refine ⟨c, tail ++ '.' :: places, rfl, digit hc, ?_⟩
    rw [scan_of_plain (not_mem_of_test hc (by decide)), if_pos hc, ← List.cons_append,
      ← List.cons_append, scanNumber_point hne' hd hp hrest]
  | @bare c tail rest hc htail hrest =>
    have hbounds := bounds_of_beginsName hc
    have hdigit : ¬ c.isDigit = true := fun h => by have := bounds_of_isDigit h; omega
    refine ⟨c, tail, rfl, isBlank_of_bounds (by omega) (by omega), ?_⟩
    rw [scan_of_plain (not_mem_of_test hc (by decide)), if_neg hdigit, if_pos hc,
      takeWhile_of_stop htail hrest, dropWhile_of_stop htail hrest]

theorem scanSign?_cut {spelling rest rest' : List Char} {l : Lexeme}
    (h : scanSign? (spelling ++ rest) = some ⟨l, spelling, rest⟩) (hp : rest' <+: rest) :
    scanSign? (spelling ++ rest') = some ⟨l, spelling, rest'⟩ := by
  obtain ⟨more, rfl⟩ := hp
  generalize hcs : spelling ++ (rest' ++ more) = cs at h
  unfold scanSign? at h
  split at h <;> cases h <;> cases rest' <;> simp_all [scanSign?]

/-- A spelling stays one when the text behind it is cut. -/
theorem Spelled.cut {l : Lexeme} {spelling rest rest' : List Char} (h : Spelled l spelling rest)
    (hp : rest' <+: rest) : Spelled l spelling rest' := by
  cases h with
  | sign h => exact .sign (scanSign?_cut h hp)
  | literal hq hrest => exact .literal hq fun c hc => hrest c (mem_head?_of_front hp hc)
  | quoted h => exact .quoted h
  | whole hne hd hrest hpoint =>
    refine .whole hne hd (fun c hc => hrest c (mem_head?_of_front hp hc)) ?_
    rintro c cs rfl
    obtain ⟨more, rfl⟩ := hp
    exact hpoint c (cs ++ more) rfl
  | point hne hne' hd hp' hrest =>
    exact .point hne hne' hd hp' fun c hc => hrest c (mem_head?_of_front hp hc)
  | bare hc htail hrest =>
    exact .bare hc htail fun c hc => hrest c (mem_head?_of_front hp hc)

/-! ## Texts -/

/-- A text, lexemes at its front with any blanks between them, and the text behind them. -/
inductive Lexes : List Char → List Lexeme → List Char → Prop where
  | done (rest : List Char) : Lexes rest [] rest
  | blank {c : Char} {cs : List Char} {ls : List Lexeme} {rest : List Char}
      (hc : Text.isBlank c = true) (h : Lexes cs ls rest) : Lexes (c :: cs) ls rest
  | token {l : Lexeme} {spelling cs : List Char} {ls : List Lexeme} {rest : List Char}
      (hl : Spelled l spelling cs) (h : Lexes cs ls rest) :
      Lexes (spelling ++ cs) (l :: ls) rest

namespace Lexes

variable {cs mid rest : List Char} {ls ms : List Lexeme}

theorem append (first : Lexes cs ls mid) (last : Lexes mid ms rest) : Lexes cs (ls ++ ms) rest := by
  induction first with
  | done => exact last
  | blank hc _ ih => exact .blank hc (ih last)
  | token hl _ ih => exact .token hl (ih last)

theorem blanks {gap : List Char} (h : ∀ c ∈ gap, Text.isBlank c = true) (hls : Lexes cs ls rest) :
    Lexes (gap ++ cs) ls rest := by
  induction gap with
  | nil => exact hls
  | cons c gap ih =>
    obtain ⟨hc, hgap⟩ := List.forall_mem_cons.1 h
    exact .blank hc (ih hgap)

theorem sign {c : Char} {l : Lexeme} (h : scanSign? (c :: cs) = some ⟨l, [c], cs⟩)
    (hls : Lexes cs ls rest) : Lexes (c :: cs) (l :: ls) rest := by
  rw [← List.singleton_append]
  exact .token (.sign h) hls

/-- A text that is cut behind the lexemes keeps them. -/
theorem cut (h : Lexes cs ls rest) :
    ∃ front, cs = front ++ rest ∧ ∀ rest', rest' <+: rest → Lexes (front ++ rest') ls rest' := by
  induction h with
  | done rest => exact ⟨[], rfl, fun rest' _ => .done rest'⟩
  | @blank c _ _ _ hc _ ih =>
    obtain ⟨front, rfl, hcut⟩ := ih
    exact ⟨c :: front, rfl, fun rest' hp => .blank hc (hcut rest' hp)⟩
  | @token _ spelling _ _ _ hl _ ih =>
    obtain ⟨front, rfl, hcut⟩ := ih
    refine ⟨spelling ++ front, (List.append_assoc ..).symm, fun rest' hp => ?_⟩
    rw [List.append_assoc]
    exact .token (hl.cut ((List.prefix_append_right_inj front).2 hp)) (hcut rest' hp)

end Lexes

section

variable {offset : Nat} {cs : List Char}

/-- The tokens of a text are its lexemes. -/
theorem lexes_of_tokensFrom {ts : List Token} (h : tokensFrom offset cs = .ok ts) :
    Lexes cs (lexemes ts) [] := by
  fun_induction tokensFrom offset cs generalizing ts with
  | case1 =>
    cases h
    exact .done []
  | case2 offset c cs hc ih => exact .blank hc (ih h)
  | case3 => cases h
  | case4 => cases h
  | case5 offset c cs hc s hs hlt stop us hus =>
    rename_i ih
    cases h
    rw [← (scan_eq hs).1]
    exact .token (.of_scan hs) (ih hus)

theorem tokensFrom_blank {c : Char} (hc : Text.isBlank c = true) (cs : List Char) (offset : Nat) :
    tokensFrom offset (c :: cs) = tokensFrom (offset + c.utf8Size) cs := by
  rw [tokensFrom, if_pos hc]

/-- A spelled lexeme is the first token, and the others are those of the text behind it. -/
theorem Spelled.tokensFrom {l : Lexeme} {spelling rest : List Char} (h : Spelled l spelling rest)
    (offset : Nat) :
    Sql.tokensFrom offset (spelling ++ rest) =
      (Sql.tokensFrom (offset + Text.byteLength spelling) rest).map
        (⟨l, offset, offset + Text.byteLength spelling⟩ :: ·) := by
  obtain ⟨c, tail, rfl, hblank, hscan⟩ := h.scan offset
  rw [List.cons_append, Sql.tokensFrom, if_neg (by simp [hblank])]
  split
  · next e he =>
    rw [hscan] at he
    cases he
  · next s hs =>
    rw [hscan] at hs
    cases hs
    dsimp only
    cases Sql.tokensFrom (offset + Text.byteLength (c :: tail)) rest <;> rfl

/-- The lexemes at the front of a text are its first tokens, and the others are those of the rest.
-/
theorem Lexes.tokensFrom_append {rest : List Char} {ls : List Lexeme} (h : Lexes cs ls rest)
    (offset : Nat) :
    ∃ front ts, cs = front ++ rest ∧ lexemes ts = ls ∧
      Sql.tokensFrom offset cs =
        (Sql.tokensFrom (offset + Text.byteLength front) rest).map (ts ++ ·) := by
  induction h generalizing offset with
  | done rest =>
    refine ⟨[], [], rfl, rfl, ?_⟩
    rw [Text.byteLength_nil, Nat.add_zero]
    cases Sql.tokensFrom offset rest <;> rfl
  | @blank c cs ls rest hc _ ih =>
    obtain ⟨front, ts, rfl, hts, hread⟩ := ih (offset + c.utf8Size)
    refine ⟨c :: front, ts, rfl, hts, ?_⟩
    rw [tokensFrom_blank hc, hread, Text.byteLength_cons, Nat.add_assoc]
  | @token l spelling cs ls rest hl _ ih =>
    obtain ⟨front, ts, rfl, hts, hread⟩ := ih (offset + Text.byteLength spelling)
    refine ⟨spelling ++ front, ⟨l, offset, offset + Text.byteLength spelling⟩ :: ts, by simp,
      by simp [hts], ?_⟩
    rw [hl.tokensFrom, hread, Text.byteLength_append, ← Nat.add_assoc]
    cases Sql.tokensFrom _ rest <;> rfl

/-- Whatever the place, a text has its lexemes as tokens. -/
theorem Lexes.tokensFrom {ls : List Lexeme} (h : Lexes cs ls []) (offset : Nat) :
    ∃ ts, Sql.tokensFrom offset cs = .ok ts ∧ lexemes ts = ls := by
  obtain ⟨front, ts, -, hts, hread⟩ := h.tokensFrom_append offset
  refine ⟨ts, ?_, hts⟩
  rw [hread, Sql.tokensFrom, map_ok, List.append_nil]

/-- A text has its lexemes in one way only. -/
theorem Lexes.unique {ls ms : List Lexeme} (h : Lexes cs ls []) (h' : Lexes cs ms []) : ls = ms := by
  obtain ⟨ts, hts, rfl⟩ := h.tokensFrom 0
  obtain ⟨us, hus, rfl⟩ := h'.tokensFrom 0
  rw [hts] at hus
  cases hus
  rfl

/-- What is in front of some tokens of a text can be taken away. -/
theorem tokensFrom_append {before ts : List Token} (h : tokensFrom offset cs = .ok (before ++ ts)) :
    ∃ front back, cs = front ++ back ∧
      tokensFrom (offset + Text.byteLength front) back = .ok ts := by
  rcases eq_or_ne before [] with rfl | hne
  · exact ⟨[], cs, rfl, h⟩
  fun_induction tokensFrom offset cs generalizing before with
  | case1 =>
    obtain ⟨rfl, -⟩ := List.append_eq_nil_iff.1 (Except.ok.inj h).symm
    exact (hne rfl).elim
  | case2 offset c cs hc ih =>
    obtain ⟨front, back, rfl, hback⟩ := ih h hne
    exact ⟨c :: front, back, rfl, by rwa [Text.byteLength_cons, ← Nat.add_assoc]⟩
  | case3 => cases h
  | case4 => cases h
  | case5 offset c cs hc s hs hlt stop us hus =>
    rename_i ih
    obtain ⟨t, before, rfl⟩ := List.exists_cons_of_ne_nil hne
    cases h
    rcases eq_or_ne before [] with rfl | hne'
    · exact ⟨s.spelling, s.rest, (scan_eq hs).1.symm, hus⟩
    · obtain ⟨front, back, hrest, hback⟩ := ih hus hne'
      refine ⟨s.spelling ++ front, back, ?_, ?_⟩
      · rw [← (scan_eq hs).1, hrest, List.append_assoc]
      · rwa [Text.byteLength_append, ← Nat.add_assoc]

/-- Tokens of a text cover the part from the start of the first to the end of the last, and that
part has their lexemes with whatever stands behind it. -/
theorem body_of_tokensFrom {mid rest : List Token} (hne : mid ≠ [])
    (h : tokensFrom offset cs = .ok (mid ++ rest)) :
    ∃ gap body back first last, cs = gap ++ body ++ back ∧ (∀ c ∈ gap, Text.isBlank c = true) ∧
      mid.head? = some first ∧ first.start = offset + Text.byteLength gap ∧
      mid.getLast? = some last ∧ last.stop = first.start + Text.byteLength body ∧
      Lexes (body ++ back) (lexemes mid) back := by
  fun_induction tokensFrom offset cs generalizing mid with
  | case1 =>
    obtain ⟨rfl, -⟩ := List.append_eq_nil_iff.1 (Except.ok.inj h).symm
    exact (hne rfl).elim
  | case2 offset c cs hc ih =>
    obtain ⟨gap, body, back, first, last, rfl, hgap, hfirst, hstart, hlast, hstop, hbody⟩ := ih hne h
    exact ⟨c :: gap, body, back, first, last, rfl, List.forall_mem_cons.2 ⟨hc, hgap⟩, hfirst,
      by rw [hstart, Text.byteLength_cons, Nat.add_assoc], hlast, hstop, hbody⟩
  | case3 => cases h
  | case4 => cases h
  | case5 offset c cs hc s hs hlt stop us hus =>
    rename_i ih
    obtain ⟨t, mid, rfl⟩ := List.exists_cons_of_ne_nil hne
    cases h
    have hcs := (scan_eq hs).1
    have hspelled := Spelled.of_scan hs
    rcases eq_or_ne mid [] with rfl | hmid
    · refine ⟨[], s.spelling, s.rest, _, _, hcs.symm, nofun, rfl, rfl, rfl, rfl, ?_⟩
      exact .token hspelled (.done s.rest)
    · obtain ⟨gap, body, back, first, last, hrest, hgap, hfirst, hstart, hlast, hstop, hbody⟩ :=
        ih hmid hus
      refine ⟨[], s.spelling ++ gap ++ body, back, _, last, ?_, nofun, rfl, rfl, ?_, ?_, ?_⟩
      · rw [← hcs, hrest]
        simp
      · rw [List.getLast?_cons, hlast, Option.getD_some]
      · change last.stop = offset + _
        rw [hstop, hstart, Text.byteLength_append, Text.byteLength_append]
        omega
      · rw [List.append_assoc, List.append_assoc]
        rw [hrest, List.append_assoc] at hspelled
        exact .token hspelled (.blanks hgap hbody)

end

end TableQuery.Sql
