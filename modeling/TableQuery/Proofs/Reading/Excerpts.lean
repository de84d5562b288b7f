import TableQuery.Proofs.Reading.ItemTexts

/-!
# What is shown of a text

Parts of a text are kept with the expressions that are read from them, and a fault shows the text
from its place on. All of them are cut at tokens. So each is there, from the one place to the other,
and no cut goes through a character, whatever text is read and however its reading ends.
-/

namespace TableQuery

namespace Sql

open Text (IsPart byteLength)

/-- A text is what stands between the first and the last of some tokens, these included. -/
def IsSpan (cs : List Char) (ts : List Token) (text : String) : Prop :=
  ∃ before mid behind, ∃ hne : mid ≠ [], ts = before ++ (mid ++ behind) ∧
    IsPart cs (mid.head hne).start (mid.getLast hne).stop text.toList

/-- What a fault shows of a text, if anything, is there from the place of the fault up to the end.
-/
def SyntaxError.Excerpts (cs : List Char) (e : SyntaxError) : Prop :=
  ∀ wanted r, e = .expected wanted (some r) → IsPart cs r.offset (byteLength cs) r.text.toList

variable {cs : List Char} {ts : List Token}

theorem keeps_isSpan (h : CutsWhole cs ts) :
    Keeps cs ts (fun p => IsSpan cs ts p.2) (writtenExpression cs) := by
  refine keeps_of_phrases fun before front rest e hne hts _ => ?_
  obtain ⟨part, hpart, htext⟩ := h.between before front rest hne hts
  refine ⟨before, front, rest, hne, hts, ?_⟩
  rwa [htext, String.toList_ofList]

theorem SyntaxError.IsAt.excerpts {e : SyntaxError} (he : e.IsAt cs ts) (h : CutsWhole cs ts) :
    e.Excerpts cs := by
  intro wanted r hr
  obtain ⟨rest, ⟨before, hts⟩, hmisfit⟩ := he wanted (some r) hr
  cases rest with
  | nil => cases hr.symm.trans hmisfit
  | cons t behind =>
    obtain ⟨part, hpart, hshown⟩ := h.behind before t behind wanted hts.symm
    cases (hr.symm.trans hmisfit).trans hshown
    rwa [String.toList_ofList]

theorem excerpts_of_scan {offset : Nat} {c : Char} {e : SyntaxError}
    (h : scan offset c cs = .error e) (src : List Char) : e.Excerpts src := by
  unfold scan at h
  dsimp only at h
  repeat' split at h
  all_goals cases h
  all_goals rintro _ _ ⟨⟩

/-- A text that has no tokens shows nothing of itself but a character. -/
theorem excerpts_of_tokensFrom {offset : Nat} {e : SyntaxError} (h : tokensFrom offset cs = .error e)
    (src : List Char) : e.Excerpts src := by
  fun_induction tokensFrom offset cs with
  | case1 => cases h
  | case2 offset c cs hc ih => exact ih h
  | case3 offset c cs hc e' hscan =>
    cases h
    exact excerpts_of_scan hscan src
  | case4 offset c cs hc s hscan hlt stop e' htail ih =>
    cases h
    exact ih htail
  | case5 => cases h

/-- Whatever is read from the tokens of a text, a fault shows a part of that text. -/
theorem excerpts_of_error {α : Type} {text : String} {read : List Token → Except SyntaxError α}
    {e : SyntaxError} (hread : ∀ ts, Gives text.toList ts (fun _ => True) (read ts))
    (h : (tokenize text >>= read) = .error e) : e.Excerpts text.toList := by
  cases htokens : tokenize text with
  | error e' =>
    rw [htokens] at h
    cases h
    exact excerpts_of_tokensFrom htokens text.toList
  | ok ts =>
    rw [htokens, ok_bind] at h
    exact ((hread ts).isAt h).excerpts (cutsWhole_of_tokensFrom htokens)

end Sql

open Sql

theorem Expr.excerpts_of_parse {text : String} {e : SyntaxError} (h : Expr.parse text = .error e) :
    e.Excerpts text.toList := by
  refine excerpts_of_error (fun ts => ?_) h
  refine stays_expression.gives List.suffix_rfl fun e rest _ _ => ?_
  dsimp only
  split
  · trivial
  · exact nofun

theorem Select.excerpts_of_parse {query : String} {e : SyntaxError}
    (h : Select.parse query = .error e) : e.Excerpts (stripComments query).toList := by
  refine excerpts_of_error (fun ts => ?_) h
  dsimp only
  split
  · exact nofun
  · exact stays_writtenExpression.select.mono fun _ _ => trivial

theorem Select.texts_of_parse {query : String} {q : Select} (h : Select.parse query = .ok q) :
    ∃ ts, tokenize (stripComments query) = .ok ts ∧
      q.Texts fun p => IsSpan (stripComments query).toList ts p.2 := by
  obtain ⟨ts, htokens, hselect⟩ := select_of_parse h
  have hkeeps := keeps_isSpan (cutsWhole_of_tokensFrom htokens)
  exact ⟨ts, htokens, hkeeps.select.holds hselect⟩

/-- Tokens divide a text, blanks apart, and wherever the text is cut at them, whole characters are
cut out: for the expressions that are read from any of the tokens on, for the texts that a query
keeps, and for what the faults of an expression and of a query show. -/
theorem cuts_keep_characters_whole :
    (∀ text ts, tokenize text = .ok ts → Tiles text.toList ts ∧ CutsWhole text.toList ts ∧
      Keeps text.toList ts (fun p => IsSpan text.toList ts p.2) (writtenExpression text.toList)) ∧
    (∀ text e, Expr.parse text = .error e → e.Excerpts text.toList) ∧
    (∀ query e, Select.parse query = .error e → e.Excerpts (stripComments query).toList) ∧
    ∀ query q, Select.parse query = .ok q → ∃ ts, tokenize (stripComments query) = .ok ts ∧
      q.Texts fun p => IsSpan (stripComments query).toList ts p.2 := by
  refine ⟨fun text ts h => ?_, fun _ _ => Expr.excerpts_of_parse, fun _ _ => Select.excerpts_of_parse,
    fun _ _ => Select.texts_of_parse⟩
  have hcuts := cutsWhole_of_tokensFrom h
  exact ⟨(covers_of_tokensFrom h).tiles, hcuts, keeps_isSpan hcuts⟩

/-- The same at texts whose characters take up to four bytes. -/
theorem accented_cuts_keep_characters_whole :
    (∃ ts, tokenize "x = 'ß 𝄞'" = .ok ts ∧ Tiles "x = 'ß 𝄞'".toList ts ∧
      CutsWhole "x = 'ß 𝄞'".toList ts ∧
      Keeps "x = 'ß 𝄞'".toList ts (fun p => IsSpan "x = 'ß 𝄞'".toList ts p.2)
        (writtenExpression "x = 'ß 𝄞'".toList)) ∧
    (∃ e, e.message = "expected expression near ') 'ß'' (offset 7)" ∧
      Expr.parse "'ß' > ) 'ß'" = .error e ∧ e.Excerpts "'ß' > ) 'ß'".toList) ∧
    (∃ e, Select.parse "SELECT 'ß' /* ß */ WHERE 'ß'" = .error e ∧
      e.Excerpts (stripComments "SELECT 'ß' /* ß */ WHERE 'ß'").toList) ∧
    ∃ q, Select.parse "SELECT 'ß' = x /* ß */ FROM t" = .ok q ∧
      ∃ ts, tokenize (stripComments "SELECT 'ß' = x /* ß */ FROM t") = .ok ts ∧
        q.Texts fun p => IsSpan (stripComments "SELECT 'ß' = x /* ß */ FROM t").toList ts p.2 := by
  obtain ⟨htokens, hexpression, hfault, hquery⟩ := cuts_keep_characters_whole
  obtain ⟨ts, hts⟩ := exists_eq_ok (x := tokenize "x = 'ß 𝄞'") (by decide +kernel)
  obtain ⟨e, he⟩ := exists_eq_error (x := Expr.parse "'ß' > ) 'ß'") (by decide +kernel)
  have hmessage : (match Expr.parse "'ß' > ) 'ß'" with | .error e => e.message | .ok _ => "") =
      "expected expression near ') 'ß'' (offset 7)" := by
    decide +kernel
  rw [he] at hmessage
  obtain ⟨f, hf⟩ := exists_eq_error (x := Select.parse "SELECT 'ß' /* ß */ WHERE 'ß'")
    (by decide +kernel)
  obtain ⟨q, hq⟩ := exists_eq_ok (x := Select.parse "SELECT 'ß' = x /* ß */ FROM t")
    (by decide +kernel)
  exact ⟨⟨ts, hts, htokens _ ts hts⟩, ⟨e, hmessage, he, hexpression _ e he⟩, ⟨f, hf, hfault _ f hf⟩,
    ⟨q, hq, hquery _ q hq⟩⟩

end TableQuery
