import Mathlib.Data.List.Basic
import TableQuery.Sql.Comment

/-!
# What the removal of comments leaves

The reader that removes comments goes from state to state. Text without the characters that begin or
end a comment leaves it in code or in a comment, as it found it: in code such text stays, in a
comment it goes. A comment costs more characters than it leaves, so a text that comes out with its
full weight has come out unchanged.
-/

namespace TableQuery.Sql

/-- Without its comments, a text has no characters but its own and blanks. -/
theorem mem_of_mem_stripFrom {s : CommentState} {cs : List Char} {c : Char}
    (h : c ∈ stripFrom s cs) : c ∈ cs ∨ c = ' ' := by
  fun_induction stripFrom s cs <;> grind

/-! ## One character -/

/-- Whether a comment begins with a character in front of others. -/
def opensComment (c : Char) (cs : List Char) : Prop :=
  (c = '-' ∧ cs.head? = some '-') ∨ (c = '/' ∧ cs.head? = some '*')

section

variable {c : Char} {cs xs ys : List Char}

theorem stripFrom_code {quote : Option Char} (h : quote = none → ¬ opensComment c cs) :
    stripFrom (.code quote) (c :: cs) = c :: stripFrom (.code (quoteAfter quote c)) cs := by
  rw [stripFrom.eq_def]
  split <;> simp_all [opensComment]

theorem stripFrom_block {d : Nat} (hopen : ¬ (c = '/' ∧ cs.head? = some '*'))
    (hclose : ¬ (c = '*' ∧ cs.head? = some '/')) :
    stripFrom (.block d) (c :: cs) =
      if c = '\n' then c :: stripFrom (.block d) cs else stripFrom (.block d) cs := by
  rw [stripFrom.eq_def]
  split <;> simp_all

/-! ## Texts without the characters of comments -/

/-- In code such a text stays. -/
theorem exists_stripFrom_code (h : ∀ x ∈ xs, x ≠ '-' ∧ x ≠ '/') (quote : Option Char) :
    ∃ quote', ∀ ys, stripFrom (.code quote) (xs ++ ys) = xs ++ stripFrom (.code quote') ys := by
  induction xs generalizing quote with
  | nil => exact ⟨quote, fun ys => rfl⟩
  | cons x xs ih =>
    obtain ⟨⟨hdash, hslash⟩, hxs⟩ := List.forall_mem_cons.1 h
    obtain ⟨quote', hrest⟩ := ih hxs (quoteAfter quote x)
    refine ⟨quote', fun ys => ?_⟩
    rw [List.cons_append, stripFrom_code, hrest, List.cons_append]
    rintro - (⟨hx, -⟩ | ⟨hx, -⟩)
    · exact hdash hx
    · exact hslash hx

/-- In a comment such a text goes. -/
theorem stripFrom_comment {s : CommentState} (hs : ∀ quote, s ≠ .code quote)
    (h : ∀ x ∈ xs, x ≠ '\n' ∧ x ≠ '/' ∧ x ≠ '*') (ys : List Char) :
    stripFrom s (xs ++ ys) = stripFrom s ys := by
  induction xs with
  | nil => rfl
  | cons x xs ih =>
    obtain ⟨⟨hbreak, hslash, hstar⟩, hxs⟩ := List.forall_mem_cons.1 h
    rw [List.cons_append]
    cases s with
    | code quote => exact absurd rfl (hs quote)
    | line => rw [stripFrom, if_neg hbreak, ih hxs]
    | block d =>
      rw [stripFrom_block (fun hx => hslash hx.1) (fun hx => hstar hx.1), if_neg hbreak, ih hxs]

/-! ## Texts up to a backquote -/

theorem head?_of_cut (hc : c ≠ '\x60') (h : (xs ++ '\x60' :: ys).head? = some c) :
    ∃ more, xs = c :: more := by
  cases xs with
  | nil => exact absurd (Option.some.inj h).symm hc
  | cons x xs =>
    cases h
    exact ⟨xs, rfl⟩

/-- No comment begins or ends with a backquote, so a text can be cut in front of one. -/
theorem exists_stripFrom_cut (s : CommentState) (xs : List Char) :
    ∃ s', ∀ ys, stripFrom s (xs ++ '\x60' :: ys) =
      stripFrom s xs ++ stripFrom s' ('\x60' :: ys) := by
  fun_induction stripFrom s xs with
  | case1 s => exact ⟨s, fun ys => rfl⟩
  | case2 cs ih | case3 cs ih | case5 cs ih => simpa [stripFrom] using ih
  | case4 quote c cs hline hblock ih =>
    obtain ⟨s', hrest⟩ := ih
    refine ⟨s', fun ys => ?_⟩
    rw [List.cons_append, stripFrom_code, hrest, List.cons_append]
    rintro hquote (⟨hc, hhead⟩ | ⟨hc, hhead⟩)
    · obtain ⟨more, hmore⟩ := head?_of_cut (by decide) hhead
      exact hline more hquote hc hmore
    · obtain ⟨more, hmore⟩ := head?_of_cut (by decide) hhead
      exact hblock more hquote hc hmore
  | case6 c cs hc ih => simpa [stripFrom, hc] using ih
  | case7 d cs ih | case8 cs ih | case9 d cs ih => simpa [stripFrom] using ih
  | case10 d cs hopen hlast hclose ih =>
    obtain ⟨s', hrest⟩ := ih
    refine ⟨s', fun ys => ?_⟩
    rw [List.cons_append, stripFrom_block (by simp) (by simp), if_pos rfl, hrest, List.cons_append]
  | case11 d c cs hopen hlast hclose hbreak ih =>
    obtain ⟨s', hrest⟩ := ih
    refine ⟨s', fun ys => ?_⟩
    rw [List.cons_append, stripFrom_block, if_neg hbreak, hrest]
    · rintro ⟨hc, hhead⟩
      obtain ⟨more, hmore⟩ := head?_of_cut (by decide) hhead
      exact hopen more hc hmore
    · rintro ⟨hc, hhead⟩
      obtain ⟨more, hmore⟩ := head?_of_cut (by decide) hhead
      cases d with
      | zero => exact hlast more rfl hc hmore
      | succ d => exact hclose d more rfl hc hmore

end

/-! ## The weight of a text -/

/-- The number of characters that are no equal signs. -/
def weight (cs : List Char) : Nat :=
  cs.countP (· != '=')

/-- No text gains weight; and one that begins in code loses some, or stays as it is. -/
theorem weight_stripFrom (s : CommentState) (cs : List Char) :
    weight (stripFrom s cs) ≤ weight cs ∧
      ∀ quote, s = .code quote → stripFrom s cs = cs ∨ weight (stripFrom s cs) < weight cs := by
  fun_induction stripFrom s cs <;> grind [weight]

theorem stripFrom_eq_of_weight {quote : Option Char} {cs : List Char}
    (h : weight (stripFrom (.code quote) cs) = weight cs) : stripFrom (.code quote) cs = cs := by
  rcases (weight_stripFrom (.code quote) cs).2 quote rfl with hsame | hless
  · exact hsame
  · omega

end TableQuery.Sql
