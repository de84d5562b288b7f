import TableQuery.Proofs.Reading.Comments
import TableQuery.Sql.Select

/-!
# Texts without comments

A text has no comments if none begins outside its string literals. Such a text is left as it is when
comments are removed, and what is left of any text is one: the characters around a comment do not
meet, since a blank or a line break stands between them, and its quotes are gone with it. So
comments are removed once and for all, and a query reads like the text that is left of it.
-/

namespace TableQuery

namespace Sql

/-- No comment begins in a text outside its literals; the given quote is open in front of it. -/
def Commentless : Option Char → List Char → Prop
  | _, [] => True
  | quote, c :: cs =>
    (quote = none → ¬ opensComment c cs) ∧ Commentless (quoteAfter quote c) cs

/-- Nothing is removed from a text without comments. -/
theorem stripFrom_of_commentless {quote : Option Char} {cs : List Char}
    (h : Commentless quote cs) : stripFrom (.code quote) cs = cs := by
  induction cs generalizing quote with
  | nil => rw [stripFrom]
  | cons c cs ih =>
    obtain ⟨hopens, hrest⟩ := h
    rw [stripFrom_code hopens, ih hrest]

/-! ## What is left of a comment -/

/-- Whether a character is one of those that are left of a comment. -/
def IsSeparator (c : Char) : Prop :=
  c = ' ' ∨ c = '\n'

/-- A comment leaves nothing in front of the first separator. -/
theorem isSeparator_of_comment {s : CommentState} {cs : List Char}
    (hs : ∀ quote, s ≠ .code quote) : ∀ c ∈ (stripFrom s cs).head?, IsSeparator c := by
  fun_induction stripFrom s cs with
  | case1 => simp
  | case2 | case3 | case4 => exact absurd rfl (hs _)
  | case5 cs => simp [IsSeparator]
  | case6 c cs hc ih => exact ih (by simp)
  | case7 d cs ih | case9 d cs ih => exact ih (by simp)
  | case8 cs => simp [IsSeparator]
  | case10 d cs => simp [IsSeparator]
  | case11 d c cs _ _ _ _ ih => exact ih (by simp)

theorem exists_comment_of_opens {c : Char} {cs : List Char} (h : opensComment c cs) :
    ∃ s rest, (∀ quote, s ≠ .code quote) ∧ stripFrom (.code none) (c :: cs) = stripFrom s rest := by
  rcases h with ⟨rfl, hcs⟩ | ⟨rfl, hcs⟩ <;> obtain ⟨rest, rfl⟩ := List.head?_eq_some_iff.1 hcs
  · exact ⟨.line, rest, by simp, by rw [stripFrom]⟩
  · exact ⟨.block 0, rest, by simp, by rw [stripFrom]⟩

/-- The first character that is left is the first one of the text, or it is left of a comment. -/
theorem head?_stripFrom_code (quote : Option Char) (cs : List Char) :
    ∀ c ∈ (stripFrom (.code quote) cs).head?, c ∈ cs.head? ∨ IsSeparator c := by
  cases cs with
  | nil => simp [stripFrom]
  | cons d ds =>
    by_cases hopens : quote = none ∧ opensComment d ds
    · obtain ⟨rfl, hopens⟩ := hopens
      obtain ⟨s, rest, hs, hstrip⟩ := exists_comment_of_opens hopens
      rw [hstrip]
      exact fun c hc => .inr (isSeparator_of_comment hs c hc)
    · rw [stripFrom_code fun hquote hd => hopens ⟨hquote, hd⟩]
      exact fun c hc => .inl hc

/-- Characters that do not begin a comment do not do so when the comments behind them are gone. -/
theorem not_opensComment_stripFrom {c : Char} {cs : List Char} (quote : Option Char)
    (h : ¬ opensComment c cs) : ¬ opensComment c (stripFrom (.code quote) cs) := by
  rintro (⟨hc, hhead⟩ | ⟨hc, hhead⟩) <;>
    rcases head?_stripFrom_code quote cs _ hhead with hsame | hseparator
  · exact h (.inl ⟨hc, hsame⟩)
  · exact absurd hseparator (by unfold IsSeparator; decide)
  · exact h (.inr ⟨hc, hsame⟩)
  · exact absurd hseparator (by unfold IsSeparator; decide)

/-- The quote that is open where a reader stands; none is in a comment. -/
def CommentState.quote : CommentState → Option Char
  | .code quote => quote
  | _ => none

/-- A separator opens no comment, and no literal. -/
theorem Commentless.separator {c : Char} {cs : List Char} (hc : IsSeparator c)
    (h : Commentless none cs) : Commentless none (c :: cs) := by
  rcases hc with rfl | rfl
  · exact ⟨fun _ => by simp [opensComment], h⟩
  · exact ⟨fun _ => by simp [opensComment], h⟩

/-- What is left of a text has no comments. -/
theorem commentless_stripFrom (s : CommentState) (cs : List Char) :
    Commentless s.quote (stripFrom s cs) := by
  fun_induction stripFrom s cs with
  | case1 => trivial
  | case2 cs ih | case3 cs ih => exact ih
  | case4 quote c cs hline hblock ih =>
    refine ⟨fun hquote => not_opensComment_stripFrom _ ?_, ih⟩
    rintro (⟨hc, hcs⟩ | ⟨hc, hcs⟩) <;> obtain ⟨rest, rfl⟩ := List.head?_eq_some_iff.1 hcs
    · exact hline rest hquote hc rfl
    · exact hblock rest hquote hc rfl
  | case5 cs ih => exact .separator (.inr rfl) ih
  | case6 c cs hc ih => exact ih
  | case7 d cs ih | case9 d cs ih => exact ih
  | case8 cs ih => exact .separator (.inl rfl) ih
  | case10 d cs hopen hlast hclose ih => exact .separator (.inr rfl) ih
  | case11 d c cs hopen hlast hclose hbreak ih => exact ih

end Sql

open Sql

/-- Comments are removed once and for all: a text without its comments has none left, reads as the
text does, and has as many lines. -/
theorem stripComments_idempotent (text : String) :
    Commentless none (stripComments text).toList ∧
      stripComments (stripComments text) = stripComments text ∧
      Select.parse (stripComments text) = Select.parse text ∧
      (stripComments text).toList.count '\n' = text.toList.count '\n' := by
  have hleft : Commentless none (stripComments text).toList := by
    rw [stripComments, String.toList_ofList]
    exact commentless_stripFrom (.code none) text.toList
  have hsame : stripComments (stripComments text) = stripComments text := by
    rw [stripComments, stripFrom_of_commentless hleft, String.ofList_toList]
  refine ⟨hleft, hsame, ?_, ?_⟩
  · rw [Select.parse, Select.parse, hsame]
  · rw [stripComments, String.toList_ofList]
    exact count_newline_stripFrom (.code none) text.toList

end TableQuery
