import TableQuery.Proofs.Reading.Words
import Mathlib

/-!
# Blanks between tokens

The characters that a token covers spell it wherever they stand, as long as a blank or the end of
the text follows them. So a text can be taken apart into its tokens and put together with other
blanks between them, and every token can be read alone.
-/

namespace TableQuery.Sql

/-- The characters that a token of a text covers. -/
def Token.spelling (text : String) (t : Token) : List Char :=
  Text.slice text.toList t.start t.stop

/-- A text of pieces in their order, with a blank at least between any two of them, and any blanks
behind the last one. -/
inductive Spaced : List (List Char) → List Char → Prop where
  | done (gap : List Char) (hgap : ∀ c ∈ gap, Text.isBlank c = true) : Spaced [] gap
  | piece (piece gap : List Char) {cs : List Char} {pieces : List (List Char)}
      (hgap : ∀ c ∈ gap, Text.isBlank c = true) (hne : pieces ≠ [] → gap ≠ [])
      (h : Spaced pieces cs) : Spaced (piece :: pieces) (piece ++ gap ++ cs)

/-! ## One token -/

/-- A token is spelled by its own characters with nothing behind them. -/
theorem Spelled.alone {l : Lexeme} {spelling rest : List Char} (h : Spelled l spelling rest) :
    Spelled l spelling [] :=
  h.cut List.nil_prefix

/-- A token is spelled by its own characters in front of blanks. -/
theorem Spelled.of_isBlank {l : Lexeme} {spelling rest : List Char} (h : Spelled l spelling [])
    (hrest : ∀ c ∈ rest.head?, Text.isBlank c = true) : Spelled l spelling rest := by
  cases rest with
  | nil => exact h
  | cons c cs => exact h.extend (endsTokens_of_isBlank (hrest c rfl)) cs

/-- The characters that a token covers spell it, and they are all of its bytes. -/
theorem spelled_of_tokensFrom {offset : Nat} {front cs : List Char} {ts : List Token}
    (hfront : Text.byteLength front = offset) (h : tokensFrom offset cs = .ok ts) :
    ∀ t ∈ ts, Spelled t.lexeme (Text.slice (front ++ cs) t.start t.stop) [] ∧
      Text.byteLength (Text.slice (front ++ cs) t.start t.stop) = t.stop - t.start := by
  fun_induction tokensFrom offset cs generalizing front ts with
  | case1 =>
    cases h
    exact List.forall_mem_nil _
  | case2 offset c cs hc ih =>
    rw [List.append_cons]
    exact ih (by simp [hfront]) h
  | case3 => cases h
  | case4 => cases h
  | case5 offset c cs hc s hs hlt stop us hus =>
    rename_i ih
    cases h
    rw [← (scan_eq hs).1, ← List.append_assoc]
    refine List.forall_mem_cons.2 ⟨?_, ih (by simp [hfront, stop]) hus⟩
    have hslice : Text.slice (front ++ s.spelling ++ s.rest) offset stop = s.spelling := by
      simp only [stop, ← hfront, Text.slice_append]
    rw [hslice]
    exact ⟨(Spelled.of_scan hs).alone, (Nat.add_sub_cancel_left ..).symm⟩

theorem Token.spelled {text : String} {ts : List Token} (h : tokenize text = .ok ts) {t : Token}
    (ht : t ∈ ts) : Spelled t.lexeme (t.spelling text) [] ∧
      Text.byteLength (t.spelling text) = t.stop - t.start :=
  spelled_of_tokensFrom Text.byteLength_nil h t ht

/-! ## Texts -/

theorem Lexes.of_blanks {gap : List Char} (h : ∀ c ∈ gap, Text.isBlank c = true) :
    Lexes gap [] [] := by
  have hdone := Lexes.blanks h (.done [])
  rwa [List.append_nil] at hdone

/-- Spelled tokens with blanks between them are read as they are. -/
theorem Spaced.lexes {pieces : List (List Char)} {cs : List Char} (h : Spaced pieces cs)
    {ls : List Lexeme} (hls : List.Forall₂ (fun l piece => Spelled l piece []) ls pieces) :
    Lexes cs ls [] := by
  induction h generalizing ls with
  | done gap hgap =>
    cases hls
    exact .of_blanks hgap
  | @piece piece gap cs pieces hgap hne hrest ih =>
    obtain ⟨l, ls', hl, hls', rfl⟩ := List.forall₂_cons_right_iff.1 hls
    rw [List.append_assoc]
    refine .token (hl.of_isBlank ?_) (.blanks hgap (ih hls'))
    cases gap with
    | cons c gap =>
      rintro _ ⟨⟩
      exact hgap c List.mem_cons_self
    | nil =>
      have hlast : pieces = [] := by
        by_contra hpieces
        exact hne hpieces rfl
      subst hlast
      cases hrest with
      | done _ hend => exact fun c hc => hend c (List.mem_of_mem_head? hc)

/-- The tokens of a text do not depend on the blanks between them: with others they say the same,
and every one of them can be read alone. -/
theorem tokenize_respaced {text : String} {ts : List Token} (h : tokenize text = .ok ts) :
    (∀ cs, Spaced (ts.map (Token.spelling text)) cs →
      ∃ us, tokenize (String.ofList cs) = .ok us ∧ lexemes us = lexemes ts) ∧
    ∀ t ∈ ts, tokenize (String.ofList (t.spelling text)) = .ok [⟨t.lexeme, 0, t.stop - t.start⟩] := by
  constructor
  · intro cs hcs
    have hlexes : Lexes cs (lexemes ts) [] := by
      refine hcs.lexes ?_
      rw [lexemes, List.forall₂_map_left_iff, List.forall₂_map_right_iff, List.forall₂_same]
      exact fun t ht => (Token.spelled h ht).1
    rw [tokenize, String.toList_ofList]
    exact hlexes.tokensFrom 0
  · intro t ht
    obtain ⟨hspelled, hlength⟩ := Token.spelled h ht
    have halone := hspelled.tokensFrom 0
    rw [List.append_nil, hlength, Nat.zero_add] at halone
    rw [tokenize, String.toList_ofList, halone, tokensFrom, map_ok]

theorem tokenize_respaced_comparison :
    let text := "a-b<='x''y'"
    let ts : List Token :=
      [⟨.name "a", 0, 1⟩, ⟨.sign .minus, 1, 2⟩, ⟨.name "b", 2, 3⟩, ⟨.sign .lessEqual, 3, 5⟩,
        ⟨.literal "x'y", 5, 11⟩]
    tokenize text = .ok ts ∧
      Spaced (ts.map (Token.spelling text)) "a -\tb <=\n 'x''y' ".toList ∧
      (∃ us, tokenize (String.ofList "a -\tb <=\n 'x''y' ".toList) = .ok us ∧
        lexemes us = lexemes ts) ∧
      tokenize (String.ofList "'x''y'".toList) = .ok [⟨.literal "x'y", 0, 6⟩] := by
  intro text ts
  have h : tokenize text = .ok ts := by cbv
  have hspellings : ts.map (Token.spelling text) =
      [['a'], ['-'], ['b'], ['<', '='], "'x''y'".toList] := by decide +kernel
  have hliteral : Token.spelling text ⟨.literal "x'y", 5, 11⟩ = "'x''y'".toList := by
    decide +kernel
  have hspaced : Spaced (ts.map (Token.spelling text)) "a -\tb <=\n 'x''y' ".toList := by
    have hblank {gap : List Char} (hall : gap.all Text.isBlank = true) :
        ∀ c ∈ gap, Text.isBlank c = true := List.all_eq_true.1 hall
    rw [hspellings]
    exact .piece ['a'] [' '] (hblank rfl) (by simp) <|
      .piece ['-'] ['\t'] (hblank rfl) (by simp) <|
      .piece ['b'] [' '] (hblank rfl) (by simp) <|
      .piece ['<', '='] ['\n', ' '] (hblank rfl) (by simp) <|
      .piece "'x''y'".toList [' '] (hblank rfl) (by simp) <|
      .done [] (hblank rfl)
  obtain ⟨hall, halone⟩ := tokenize_respaced h
  refine ⟨h, hspaced, hall _ hspaced, ?_⟩
  rw [← hliteral]
  exact halone ⟨.literal "x'y", 5, 11⟩ (by simp [ts])

end TableQuery.Sql
