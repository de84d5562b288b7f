import TableQuery.Expr.Text
import TableQuery.Proofs.Reading.Words

/-!
# Reading what was written

The written form of an expression, read as a text, is the expression again. The written form puts
binary operators in parentheses and nothing else, so a test or a negation may not stand where a
tighter operand is wanted; and a minus sign in front of a number belongs to the number.
-/

namespace TableQuery

/-- Whether a literal is read as it is written: doubles are left out, and the least integer has a
size that is no integer. -/
def Scalar.isReadable : Scalar → Bool
  | .int i => i != Int64.minValue
  | .float _ => false
  | _ => true

namespace Expr

/-- Whether an expression is looser than a sum when it is written. -/
def isTest : Expr → Bool
  | .not _ => true
  | .isNull _ _ => true
  | .inList _ _ _ => true
  | _ => false

/-- Whether an expression is a whole number. -/
def isInteger : Expr → Bool
  | .literal (.int _) => true
  | _ => false

mutual

/-- Whether an expression is read as it is written. -/
def isReadable : Expr → Bool
  | .literal x => x.isReadable
  | .column name => Sql.isBareColumn name
  | .call name args => Sql.isBareColumn name && Text.upper name == name && allReadable args
  | .countStar => true
  | .neg e => isReadable e && !e.isTest && !e.isInteger
  | .not e => isReadable e
  | .binary op l r =>
    isReadable l && isReadable r && (op.isConnective || (!l.isTest && !r.isTest))
  | .isNull e _ => isReadable e && !e.isTest
  | .inList e items _ => isReadable e && !e.isTest && allReadable items

def allReadable : List Expr → Bool
  | [] => true
  | e :: es => isReadable e && allReadable es

end

end Expr

namespace Sql

/-- Whether what follows may stand behind an expression in a written form. -/
def EndsWritten (rest : List Char) : Prop :=
  ∀ c ∈ rest.head?, c ∈ [' ', ',', ')']

namespace EndsWritten

variable {rest : List Char} {c : Char}

theorem cons (h : c ∈ [' ', ',', ')']) : EndsWritten (c :: rest) := by
  rintro _ ⟨⟩
  exact h

/-- What fails on all these characters fails on the first one. -/
theorem eq_false {p : Char → Bool} (h : EndsWritten rest)
    (hp : [' ', ',', ')'].all (fun c => !p c) = true) : ∀ c ∈ rest.head?, p c = false :=
  fun c hc => by simpa using List.all_eq_true.1 hp c (h c hc)

theorem endsName (h : EndsWritten rest) : EndsName rest :=
  h.eq_false (by decide)

theorem not_isDigit (h : EndsWritten rest) : ∀ c ∈ rest.head?, c.isDigit = false :=
  h.eq_false (by decide)

end EndsWritten

/-! ## Whole numbers -/

theorem ofDigits_toDigits (n : Nat) : Number.ofDigits (Nat.toDigits 10 n) = n := by
  have hdigits (cs : List Char) (h : ∀ c ∈ cs, c.isDigit = true) (m : Nat) :
      cs.foldl (fun n c => if c.isDigit then 10 * n + (c.toNat - '0'.toNat) else n) m =
        Nat.ofDigitChars 10 cs m := by
    induction cs generalizing m with
    | nil => rfl
    | cons c cs ih =>
      obtain ⟨hc, hcs⟩ := List.forall_mem_cons.1 h
      rw [List.foldl_cons, if_pos hc, ih hcs, Nat.ofDigitChars_cons]
  rw [Number.ofDigits, hdigits _ (fun _ => Nat.isDigit_of_mem_toDigits (by decide) (by decide))]
  exact Nat.ofDigitChars_ten_toDigits

theorem numberLiteral_repr {i : Int64} {n : Nat} (h : i.toInt = n) :
    numberLiteral n.repr = .int i := by
  have hpoint : (Nat.toDigits 10 n).contains '.' = false := by
    rw [Bool.eq_false_iff, Ne, List.contains_iff_mem]
    intro hmem
    have := Nat.isDigit_of_mem_toDigits (by decide) (by decide) hmem
    cases this
  simp only [numberLiteral, Nat.toList_repr, hpoint, ofDigits_toDigits]
  rw [if_neg (by decide), ← h, Number.toInt64?_toInt]

theorem Spelled.of_repr (n : Nat) {rest : List Char} (h : EndsWritten rest) :
    Spelled (.number n.repr) n.repr.toList rest := by
  rw [Nat.toList_repr, Nat.repr_eq_ofList_toDigits]
  refine .whole Nat.toDigits_ne_nil (fun _ => Nat.isDigit_of_mem_toDigits (by decide) (by decide))
    h.not_isDigit ?_
  rintro c cs rfl
  exact absurd (h '.' rfl) (by decide)

/-! ## Written forms -/

theorem endsName_cons {c : Char} (h : continuesName true c = false) (rest : List Char) :
    EndsName (c :: rest) := by
  rintro _ ⟨⟩
  exact h

/-- The minus sign of a number is a sign in front of its size. -/
theorem lexes_negative {i : Int64} (hneg : i.toInt < 0) {rest : List Char} (hrest : EndsWritten rest) :
    Lexes ((Expr.literal (.int i)).text.toList ++ rest)
      [.sign .minus, .number (-i.toInt).toNat.repr] rest := by
  have htext : (Expr.literal (.int i)).text.toList = '-' :: (-i.toInt).toNat.repr.toList := by
    simp [Expr.text, Scalar.written, Int.repr_eq_if, Int.not_le.2 hneg]
  rw [htext]
  exact .sign rfl (.token (.of_repr _ hrest) (.done rest))

theorem Lexes.space {cs : List Char} {ls : List Lexeme} {rest : List Char} (h : Lexes cs ls rest) :
    Lexes (' ' :: cs) ls rest :=
  .blank (by decide) h

/-- The lexemes of the written form of an expression. -/
structure Legible (ls : List Lexeme) (e : Expr) : Prop where
  lexes : ∀ rest, EndsWritten rest → Lexes (e.text.toList ++ rest) ls rest
  negation : Derives .negation ls e
  signed : e.isTest = false → Derives .signed ls e
  not_first : e.isTest = false → NotFirst .not ls
  distinct_first : NotFirst .distinct ls
  select_first : NotFirst .select ls

namespace Legible

variable {ls ms : List Lexeme} {e l r : Expr}

theorem of_signed (lexes : ∀ rest, EndsWritten rest → Lexes (e.text.toList ++ rest) ls rest)
    (h : Derives .signed ls e) (hfirst : ∀ k ∈ [Keyword.not, .distinct, .select], NotFirst k ls) :
    Legible ls e where
  lexes := lexes
  negation := .positive (hfirst .not (by simp)) (.bare (.first (.first h)))
  signed := fun _ => h
  not_first := fun _ => hfirst .not (by simp)
  distinct_first := hfirst .distinct (by simp)
  select_first := hfirst .select (by simp)

theorem ne_nil (h : Legible ls e) : ls ≠ [] :=
  h.negation.ne_nil

theorem sum (h : Legible ls e) (ht : e.isTest = false) : Derives (.chain .sum) ls e :=
  .first (.first (h.signed ht))

theorem whole (h : Legible ls e) : Derives .whole ls e :=
  .first (.first h.negation)

theorem parse (h : Legible ls e) : Expr.parse e.text = .ok e := by
  refine Expr.parse_eq_ok_iff.2 ⟨ls, ?_, h.whole⟩
  have hlexes := h.lexes [] nofun
  rwa [List.append_nil] at hlexes

theorem number {i : Int64} {n : Nat} (h : i.toInt = n) :
    Legible [.number n.repr] (.literal (.int i)) := by
  refine .of_signed (fun rest hrest => ?_) (.unsigned ?_) (by simp [Lexeme.isKeyword])
  · have htext : (Expr.literal (.int i)).text = n.repr := by
      simp [Expr.text, Scalar.written, h, Int.repr_eq_if]
    rw [htext]
    exact .token (.of_repr n hrest) (.done rest)
  · rw [← numberLiteral_repr h]
    exact .number n.repr

/-- The size of a negative number is an integer too, unless the number is the least one. -/
theorem negativeNumber {i : Int64} (hneg : i.toInt < 0) (hmin : i ≠ Int64.minValue) :
    Legible [.sign .minus, .number (-i.toInt).toNat.repr] (.literal (.int i)) := by
  have hsize : (-i).toInt = (-i.toInt).toNat := by
    have hne : i.toInt ≠ Int64.minValue.toInt := fun h => hmin (Int64.toInt_inj.1 h)
    have hle := i.minValue_le_toInt
    have hvalue : Int64.minValue.toInt = -2 ^ 63 := rfl
    rw [Int64.toInt_neg, Int.toNat_of_nonneg (by omega)]
    exact Int.bmod_eq_of_le (by omega) (by omega)
  refine .of_signed (fun rest => lexes_negative hneg) ?_ (by simp [Lexeme.isKeyword])
  have hnegated : negated (.literal (.int (-i))) = .literal (.int i) := by
    rw [negated, Int64.neg_neg]
  rw [← hnegated, ← numberLiteral_repr hsize]
  exact .minus (.unsigned (.number _))

theorem string (s : String) : Legible [.literal s] (.literal (.str s)) := by
  refine .of_signed (fun rest hrest => ?_) (.unsigned (.literal s)) (by simp [Lexeme.isKeyword])
  have htext : (Expr.literal (.str s)).text.toList =
      '\'' :: (s.toList.flatMap (doubled '\'') ++ ['\'']) := by
    simp [Expr.text, Scalar.written, Scalar.quote]
    rfl
  have hquote : ∀ c ∈ rest.head?, c ≠ '\'' :=
    fun c hc => beq_eq_false_iff_ne.1 (hrest.eq_false (p := (· == '\'')) (by decide) c hc)
  have hspelled : Spelled (.literal (String.ofList s.toList)) _ rest := .literal (.inl rfl) hquote
  rw [String.ofList_toList] at hspelled
  rw [htext]
  exact .token hspelled (.done rest)

theorem literal {x : Scalar} (hx : x.isReadable = true) : ∃ ls, Legible ls (.literal x) := by
  have word {w : String} {x : Scalar} (hw : wordLiteral? w = some x) (hbare : isBare w = true)
      (htext : (Expr.literal x).text = w)
      (hfirst : ∀ k ∈ [Keyword.not, .distinct, .select], NotFirst k [.name w]) :
      Legible [.name w] (.literal x) := by
    refine .of_signed (fun rest hrest => ?_) (.unsigned (.word hw)) hfirst
    rw [htext]
    exact .token (.of_isBare hbare hrest.endsName) (.done rest)
  cases x with
  | null => exact ⟨_, word (w := "NULL") rfl (by decide) rfl (by simp only [notFirst_cons]; decide)⟩
  | bool b =>
    cases b with
    | false =>
      exact ⟨_, word (w := "FALSE") rfl (by decide) rfl (by simp only [notFirst_cons]; decide)⟩
    | true =>
      exact ⟨_, word (w := "TRUE") rfl (by decide) rfl (by simp only [notFirst_cons]; decide)⟩
  | int i =>
    rcases Int.lt_or_le i.toInt 0 with hneg | hpos
    · exact ⟨_, negativeNumber hneg (by simpa [Scalar.isReadable] using hx)⟩
    · exact ⟨_, number (Int.toNat_of_nonneg hpos).symm⟩
  | float x => cases hx
  | str s => exact ⟨_, string s⟩

theorem column {name : String} (h : isBareColumn name = true) :
    Legible [.name name] (.column name) := by
  refine .of_signed (fun rest hrest => ?_) (.unsigned (.column (not_reserved_of_isBareColumn h)))
    (by simp [isKeyword_of_isBareColumn h])
  exact .token (.of_isBare (isBare_of_isBareColumn h) hrest.endsName) (.done rest)

theorem countStar : Legible [.name "COUNT", .openParen, .sign .star, .closeParen] .countStar := by
  refine .of_signed (fun rest _ => ?_) (.unsigned (.countStar (by decide)))
    (by simp only [notFirst_cons]; decide)
  change Lexes ("COUNT".toList ++ '(' :: '*' :: ')' :: rest) _ _
  exact .token (.of_isBare (by decide) (endsName_cons (by decide) _))
    (.sign rfl (.sign rfl (.sign rfl (.done rest))))

/-- The items of a list, with what stands between them and behind them. -/
theorem lexes_listed {parts : List (List Lexeme × Expr)} (h : ∀ part ∈ parts, Legible part.1 part.2)
    (rest : List Char) :
    Lexes ((", ".intercalate (Expr.texts (parts.map Prod.snd))).toList ++ ')' :: rest)
      (listed (parts.map Prod.fst) false) rest := by
  rw [String.toList_intercalate]
  induction parts with
  | nil => exact .sign rfl (.done rest)
  | cons part parts ih =>
    obtain ⟨hpart, hparts⟩ := List.forall_mem_cons.1 h
    cases parts with
    | nil =>
      have hlexes := hpart.lexes (')' :: rest) (.cons (by simp))
      have hclose : Lexes (')' :: rest) [.closeParen] rest := .sign rfl (.done rest)
      simpa [Expr.texts] using hlexes.append hclose
    | cons next parts =>
      have hmore := ih hparts
      have hcomma := Lexes.sign (c := ',') rfl hmore.space
      have hall := (hpart.lexes _ (.cons (c := ',') (by simp))).append hcomma
      simpa [Expr.texts, List.intercalate_cons_cons] using hall

theorem neg (h : Legible ls e) (ht : e.isTest = false) (hn : negated e = .neg e) :
    Legible (.sign .minus :: ls) (.neg e) := by
  refine .of_signed (fun rest hrest => ?_) (hn ▸ .minus (h.signed ht)) (by simp [Lexeme.isKeyword])
  have htext : (Expr.neg e).text.toList = '-' :: e.text.toList := by simp [Expr.text]
  rw [htext]
  exact .sign rfl (h.lexes rest hrest)

theorem not (h : Legible ls e) : Legible (.name "NOT" :: ls) (.not e) where
  lexes rest hrest := by
    have htext : (Expr.not e).text.toList = "NOT".toList ++ ' ' :: e.text.toList := by
      simp [Expr.text]
    rw [htext, List.append_assoc]
    exact .token (.of_isBare (by decide) (endsName_cons (by decide) _)) (h.lexes rest hrest).space
  negation := .not (by decide) h.negation
  signed ht := by cases ht
  not_first ht := by cases ht
  distinct_first := by
    rw [notFirst_cons]
    decide
  select_first := by
    rw [notFirst_cons]
    decide

theorem notFirst_listed {k : Keyword} {parts : List (List Lexeme × Expr)}
    (h : ∀ part ∈ parts, part.1 ≠ [] ∧ NotFirst k part.1) :
    NotFirst k (listed (parts.map Prod.fst) false) := by
  cases parts with
  | nil => simp [listed, Lexeme.isKeyword]
  | cons part parts =>
    obtain ⟨hne, hfirst⟩ := h part List.mem_cons_self
    obtain ⟨more, hmore⟩ := listed_cons part.1 (parts.map Prod.fst) false
    rw [List.map_cons, hmore]
    exact hfirst.append hne more

theorem call {name : String} {parts : List (List Lexeme × Expr)} (hname : isBareColumn name = true)
    (hupper : Text.upper name = name) (h : ∀ part ∈ parts, Legible part.1 part.2) :
    Legible (.name name :: .openParen :: listed (parts.map Prod.fst) false)
      (.call name (parts.map Prod.snd)) := by
  have hcall := Derives.call
    (wordLiteral?_of_isReserved (not_reserved_of_isBareColumn hname))
    (notFirst_listed fun part hp => ⟨(h part hp).ne_nil, (h part hp).distinct_first⟩)
    (notFirst_listed fun part hp => ⟨(h part hp).ne_nil, (h part hp).select_first⟩)
    fun part hp => (h part hp).whole
  rw [hupper] at hcall
  refine .of_signed (fun rest _ => ?_) (.unsigned hcall) (by simp [isKeyword_of_isBareColumn hname])
  have htext : (Expr.call name (parts.map Prod.snd)).text.toList ++ rest = name.toList ++
      '(' :: ((", ".intercalate (Expr.texts (parts.map Prod.snd))).toList ++ ')' :: rest) := by
    simp [Expr.text]
  rw [htext]
  exact .token (.of_isBare (isBare_of_isBareColumn hname) (endsName_cons (by decide) _))
    (.sign rfl (lexes_listed h rest))

/-- The word `NOT` of a negated test. -/
def notWord (negated : Bool) : List Lexeme :=
  if negated then [.name "NOT"] else []

theorem notWord_spec (negated : Bool) : NotWord negated (notWord negated) := by
  cases negated with
  | false => exact .absent
  | true => exact .present (by decide)

theorem lexes_notWord (negated : Bool) {cs rest : List Char} (h : Lexes cs ls rest) :
    Lexes ((if negated then "NOT " else "").toList ++ cs) (notWord negated ++ ls) rest := by
  cases negated with
  | false => exact h
  | true =>
    change Lexes ("NOT".toList ++ ' ' :: cs) (.name "NOT" :: ls) rest
    exact .token (.of_isBare (by decide) (endsName_cons (by decide) _)) h.space

/-- A test of an operand begins as the operand does. -/
theorem of_comparison {test : Expr} (h : Legible ls e) (ht : e.isTest = false)
    (lexes : ∀ rest, EndsWritten rest → Lexes (test.text.toList ++ rest) (ls ++ ms) rest)
    (hderives : Derives .comparison (ls ++ ms) test) (htest : test.isTest = true) :
    Legible (ls ++ ms) test where
  lexes := lexes
  negation := .positive ((h.not_first ht).append h.ne_nil ms) hderives
  signed hf := by
    rw [htest] at hf
    cases hf
  not_first hf := by
    rw [htest] at hf
    cases hf
  distinct_first := h.distinct_first.append h.ne_nil ms
  select_first := h.select_first.append h.ne_nil ms

theorem isNull (h : Legible ls e) (ht : e.isTest = false) (negated : Bool) :
    Legible (ls ++ .name "IS" :: notWord negated ++ [.name "NULL"]) (.isNull e negated) := by
  have hderives := Derives.isNull (l := .name "IS") (m := .name "NULL") (h.sum ht) (by decide)
    (notWord_spec negated) (by decide)
  rw [List.append_assoc] at hderives ⊢
  refine h.of_comparison ht (fun rest hrest => ?_) hderives rfl
  have hnull : Lexes ("NULL".toList ++ rest) [.name "NULL"] rest :=
    .token (.of_isBare (by decide) hrest.endsName) (.done rest)
  have hnot := lexes_notWord negated hnull
  have his := Lexes.token (.of_isBare (s := "IS") (by decide) (endsName_cons (by decide) _)) hnot.space
  have hall := (h.lexes _ (.cons (c := ' ') (by simp))).append his.space
  simpa [Expr.text] using hall

theorem inList {parts : List (List Lexeme × Expr)} (h : Legible ls e) (ht : e.isTest = false)
    (hparts : ∀ part ∈ parts, Legible part.1 part.2) (negated : Bool) :
    Legible (ls ++ notWord negated ++ .name "IN" :: .openParen :: listed (parts.map Prod.fst) false)
      (.inList e (parts.map Prod.snd) negated) := by
  have hderives : Derives .comparison
      (ls ++ notWord negated ++ .name "IN" :: .openParen :: listed (parts.map Prod.fst) false)
      (.inList e (parts.map Prod.snd) negated) := .inList (h.sum ht) (notWord_spec negated) (by decide)
    (notFirst_listed fun part hp => ⟨(hparts part hp).ne_nil, (hparts part hp).select_first⟩)
    (by simp) fun part hp => (hparts part hp).whole
  rw [List.append_assoc] at hderives ⊢
  refine h.of_comparison ht (fun rest hrest => ?_) hderives rfl
  have hlist := Lexes.sign (c := '(') rfl (lexes_listed hparts rest)
  have hin := Lexes.token (.of_isBare (s := "IN") (by decide) (endsName_cons (by decide) _))
    hlist.space
  have hnot := lexes_notWord negated hin
  have hall := (h.lexes _ (.cons (c := ' ') (by simp))).append hnot.space
  simpa [Expr.text] using hall

/-- Without parentheses an operator takes operands of its own level, or tighter ones. -/
theorem derives_binary {op : BinaryOp} (hl : Legible ls l) (hr : Legible ms r)
    (h : op.isConnective = true ∨ (l.isTest = false ∧ r.isTest = false)) :
    Derives .whole (ls ++ op.lexeme op.symbol :: ms) (.binary op l r) := by
  cases hconnective : op.isConnective with
  | true =>
    rcases Bool.or_eq_true_iff.1 hconnective with hop | hop <;> obtain rfl := beq_iff_eq.1 hop
    · exact .first (.next (c := .conjunction) (.first hl.negation) rfl hr.negation)
    · exact .next (c := .disjunction) (.first (.first hl.negation)) rfl (.first hr.negation)
  | false =>
    obtain ⟨htl, htr⟩ := h.resolve_left (by simp [hconnective])
    have test (hd : Derives .comparison (ls ++ op.lexeme op.symbol :: ms) (.binary op l r)) :
        Derives .whole (ls ++ op.lexeme op.symbol :: ms) (.binary op l r) :=
      .first (.first (.positive ((hl.not_first htl).append hl.ne_nil _) hd))
    cases hcomparison : op.isComparison with
    | true =>
      exact test (.compared (hl.sum htl) (BinaryOp.comparisonOp?_lexeme _ hcomparison) (hr.sum htr))
    | false =>
      cases hsum : op.isSum with
      | true =>
        exact test (.bare (.next (hl.sum htl) (BinaryOp.sumOp?_lexeme _ hsum)
          (.first (hr.signed htr))))
      | false =>
        have hproduct := BinaryOp.productOp?_lexeme op.symbol hsum hcomparison hconnective
        exact test (.bare (.first (.next (.first (hl.signed htl)) hproduct (hr.signed htr))))

theorem binary {op : BinaryOp} (hl : Legible ls l) (hr : Legible ms r)
    (h : op.isConnective = true ∨ (l.isTest = false ∧ r.isTest = false)) :
    Legible (.openParen :: (ls ++ op.lexeme op.symbol :: ms) ++ [.closeParen]) (.binary op l r) := by
  refine .of_signed (fun rest _ => ?_)
    (.unsigned (.parens (hl.select_first.append hl.ne_nil _) (derives_binary hl hr h)))
    (by simp [Lexeme.isKeyword])
  have hword : op.isSpelledBy op.symbol = true := by cases op <;> decide
  have hclose : Lexes (')' :: rest) [.closeParen] rest := .sign rfl (.done rest)
  have hright := ((hr.lexes _ (.cons (c := ')') (by simp))).append hclose).space
  have hop := Lexes.token (BinaryOp.spelled_lexeme hword (by rintro _ ⟨⟩; decide)) hright
  have hleft := (hl.lexes _ (.cons (c := ' ') (by simp))).append hop.space
  have hall := Lexes.sign (c := '(') rfl hleft
  simpa [Expr.text] using hall

end Legible

/-- In front of what is no number a minus sign stays a sign. -/
theorem negated_of_isReadable {e : Expr} (h : e.isReadable = true) (hn : e.isInteger = false) :
    negated e = .neg e := by
  cases e with
  | literal x =>
    cases x with
    | int i => cases hn
    | float x => cases h
    | _ => rfl
  | _ => rfl

mutual

theorem legible (e : Expr) (h : e.isReadable = true) : ∃ ls, Legible ls e := by
  cases e with
  | literal x => exact Legible.literal h
  | column name => exact ⟨_, .column h⟩
  | countStar => exact ⟨_, .countStar⟩
  | call name args =>
    simp only [Expr.isReadable, Bool.and_eq_true] at h
    obtain ⟨parts, rfl, hparts⟩ := legible_all args h.2
    exact ⟨_, .call h.1.1 (beq_iff_eq.1 h.1.2) hparts⟩
  | neg e =>
    simp only [Expr.isReadable, Bool.and_eq_true, Bool.not_eq_true'] at h
    obtain ⟨ls, hls⟩ := legible e h.1.1
    exact ⟨_, hls.neg h.1.2 (negated_of_isReadable h.1.1 h.2)⟩
  | not e =>
    obtain ⟨ls, hls⟩ := legible e h
    exact ⟨_, hls.not⟩
  | binary op l r =>
    simp only [Expr.isReadable, Bool.and_eq_true, Bool.or_eq_true, Bool.not_eq_true'] at h
    obtain ⟨ls, hls⟩ := legible l h.1.1
    obtain ⟨ms, hms⟩ := legible r h.1.2
    exact ⟨_, hls.binary hms h.2⟩
  | isNull e negated =>
    simp only [Expr.isReadable, Bool.and_eq_true, Bool.not_eq_true'] at h
    obtain ⟨ls, hls⟩ := legible e h.1
    exact ⟨_, hls.isNull h.2 negated⟩
  | inList e items negated =>
    simp only [Expr.isReadable, Bool.and_eq_true, Bool.not_eq_true'] at h
    obtain ⟨ls, hls⟩ := legible e h.1.1
    obtain ⟨parts, rfl, hparts⟩ := legible_all items h.2
    exact ⟨_, hls.inList h.1.2 hparts negated⟩

theorem legible_all (es : List Expr) (h : Expr.allReadable es = true) :
    ∃ parts : List (List Lexeme × Expr), parts.map Prod.snd = es ∧
      ∀ part ∈ parts, Legible part.1 part.2 := by
  cases es with
  | nil => exact ⟨[], rfl, nofun⟩
  | cons e es =>
    simp only [Expr.allReadable, Bool.and_eq_true] at h
    obtain ⟨ls, hls⟩ := legible e h.1
    obtain ⟨parts, rfl, hparts⟩ := legible_all es h.2
    exact ⟨(ls, e) :: parts, rfl, List.forall_mem_cons.2 ⟨hls, hparts⟩⟩

end

end Sql

/-- What an expression is written as is read as the expression again. -/
theorem Expr.parse_text {e : Expr} (h : e.isReadable = true) : Expr.parse e.text = .ok e := by
  obtain ⟨ls, hls⟩ := Sql.legible e h
  exact hls.parse

/-- The same at an expression with signs, tests and a list next to each other. -/
theorem Expr.parse_mixed_text :
    ∃ e : Expr, e.text = "NOT (-x NOT IN (-3, NOT NULL) OR (MAX(COUNT(*), --y) <= 'it''s'))" ∧
      e.isReadable = true ∧ Expr.parse e.text = .ok e :=
  ⟨.not (.binary .or
      (.inList (.neg (.column "x")) [.literal (.int (-3)), .not (.literal .null)] true)
      (.binary .le (.call "MAX" [.countStar, .neg (.neg (.column "y"))])
        (.literal (.str "it's")))),
    by decide +kernel, by decide +kernel, Expr.parse_text (by decide +kernel)⟩

end TableQuery
