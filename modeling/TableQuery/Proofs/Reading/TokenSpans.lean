import TableQuery.Proofs.Reading.Spelling
import TableQuery.Sql.Select

/-!
# The bytes that tokens cover

The tokens of a text lie behind one another in it, each of them on whole characters, and what lies
between them is blank. So wherever a text is cut at the ends of its tokens, it is cut between two
characters: the part from one token to another, and all that follows a token, are texts again.
-/

namespace TableQuery

namespace Text

/-- The bytes from `start` up to `stop` are there, and they are those of some whole characters. -/
def IsPart (cs : List Char) (start stop : Nat) (part : List Char) : Prop :=
  ∃ front back, cs = front ++ part ++ back ∧ start = byteLength front ∧
    stop = start + byteLength part

theorem byteLength_pos {cs : List Char} (h : cs ≠ []) : 0 < byteLength cs := by
  obtain ⟨c, cs, rfl⟩ := List.exists_cons_of_ne_nil h
  exact Nat.add_pos_left c.utf8Size_pos _

namespace IsPart

variable {cs part : List Char} {start stop : Nat}

theorem slice_eq (h : IsPart cs start stop part) : slice cs start stop = part := by
  obtain ⟨front, back, rfl, rfl, rfl⟩ := h
  exact slice_append front part back

/-- A part lies within its text. -/
theorem bounds (h : IsPart cs start stop part) : start ≤ stop ∧ stop ≤ byteLength cs := by
  obtain ⟨front, back, rfl, rfl, rfl⟩ := h
  simp only [byteLength_append]
  omega

/-- What stands in front of a text moves its parts. -/
theorem append_left (h : IsPart cs start stop part) (front : List Char) :
    IsPart (front ++ cs) (byteLength front + start) (byteLength front + stop) part := by
  obtain ⟨before, back, rfl, rfl, rfl⟩ := h
  exact ⟨front ++ before, back, by simp, by simp, by simp [Nat.add_assoc]⟩

end IsPart

end Text

namespace Sql

open Text (IsPart byteLength)

/-! ## Tilings -/

/-- Tokens that cover a text from byte `offset` on, one behind the other, blanks between them apart.
-/
inductive Covers : Nat → List Char → List Token → Prop where
  | done (offset : Nat) : Covers offset [] []
  | blank {offset : Nat} {c : Char} {cs : List Char} {ts : List Token} (hc : Text.isBlank c = true)
      (h : Covers (offset + c.utf8Size) cs ts) : Covers offset (c :: cs) ts
  | token {offset : Nat} {part cs : List Char} {ts : List Token} (l : Lexeme) (hne : part ≠ [])
      (h : Covers (offset + byteLength part) cs ts) :
      Covers offset (part ++ cs) (⟨l, offset, offset + byteLength part⟩ :: ts)

theorem covers_of_tokensFrom {offset : Nat} {cs : List Char} {ts : List Token}
    (h : tokensFrom offset cs = .ok ts) : Covers offset cs ts := by
  fun_induction tokensFrom offset cs generalizing ts with
  | case1 =>
    cases h
    exact .done _
  | case2 offset c cs hc ih => exact .blank hc (ih h)
  | case3 => cases h
  | case4 => cases h
  | case5 offset c cs hc s hs hlt stop us hus =>
    rename_i ih
    cases h
    obtain ⟨hcs, hne⟩ := scan_eq hs
    rw [← hcs]
    exact .token s.lexeme hne (ih hus)

/-- Tokens divide a text: each covers some characters of it, they do not overlap and go from left to
right, and a character that none of them covers is blank. -/
structure Tiles (cs : List Char) (ts : List Token) : Prop where
  part : ∀ t ∈ ts, ∃ part, IsPart cs t.start t.stop part
  within : ∀ t ∈ ts, t.stop ≤ byteLength cs
  nonempty : ∀ t ∈ ts, t.start < t.stop
  ordered : ts.Pairwise fun t u => t.stop ≤ u.start
  blank : ∀ front c back, cs = front ++ c :: back →
    (∀ t ∈ ts, ¬(t.start ≤ byteLength front ∧ byteLength front < t.stop)) → Text.isBlank c = true

namespace Covers

variable {offset : Nat} {cs : List Char} {ts : List Token}

theorem part (h : Covers offset cs ts) :
    ∀ t ∈ ts, ∃ start stop part, part ≠ [] ∧ IsPart cs start stop part ∧
      t.start = offset + start ∧ t.stop = offset + stop := by
  induction h with
  | done => exact nofun
  | @blank offset c cs ts hc h ih =>
    intro t ht
    obtain ⟨start, stop, part, hne, hpart, hstart, hstop⟩ := ih t ht
    refine ⟨_, _, part, hne, hpart.append_left [c], ?_, ?_⟩
    · simp [hstart, Nat.add_assoc]
    · simp [hstop, Nat.add_assoc]
  | @token offset part cs ts l hne h ih =>
    refine List.forall_mem_cons.2 ⟨?_, fun t ht => ?_⟩
    · exact ⟨0, byteLength part, part, hne, ⟨[], cs, rfl, rfl, (Nat.zero_add _).symm⟩, rfl, rfl⟩
    · obtain ⟨start, stop, part', hne', hpart, hstart, hstop⟩ := ih t ht
      refine ⟨_, _, part', hne', hpart.append_left part, ?_, ?_⟩
      · rw [hstart, Nat.add_assoc]
      · rw [hstop, Nat.add_assoc]

theorem offset_le (h : Covers offset cs ts) : ∀ t ∈ ts, offset ≤ t.start := by
  intro t ht
  obtain ⟨start, stop, part, -, -, hstart, -⟩ := h.part t ht
  exact hstart ▸ Nat.le_add_right _ _

theorem ordered (h : Covers offset cs ts) : ts.Pairwise fun t u => t.stop ≤ u.start := by
  induction h with
  | done => exact .nil
  | blank _ _ ih => exact ih
  | token l hne h ih => exact .cons (fun u hu => h.offset_le u hu) ih

theorem isBlank (h : Covers offset cs ts) {front back : List Char} {c : Char}
    (hcs : cs = front ++ c :: back)
    (hc : ∀ t ∈ ts, ¬(t.start ≤ offset + byteLength front ∧ offset + byteLength front < t.stop)) :
    Text.isBlank c = true := by
  induction h generalizing front with
  | done => exact absurd hcs (by simp)
  | @blank offset d cs ts hd h ih =>
    cases front with
    | nil =>
      cases hcs
      exact hd
    | cons e front =>
      cases hcs
      exact ih rfl (by simpa [Nat.add_assoc] using hc)
  | @token offset part cs ts l hne h ih =>
    obtain ⟨hfirst, hothers⟩ := List.forall_mem_cons.1 hc
    rcases List.append_eq_append_iff.1 hcs with ⟨mid, rfl, hmid⟩ | ⟨mid, rfl, hmid⟩
    · refine ih hmid fun t ht => ?_
      simpa [Nat.add_assoc] using hothers t ht
    · cases mid with
      | nil =>
        have hrest : cs = [] ++ c :: back := by simpa using hmid.symm
        refine ih hrest fun t ht => ?_
        simpa using hothers t ht
      | cons d mid =>
        refine absurd ⟨Nat.le_add_right _ _, ?_⟩ hfirst
        have := d.utf8Size_pos
        simp only [Text.byteLength_append, Text.byteLength_cons]
        omega

theorem tiles (h : Covers 0 cs ts) : Tiles cs ts := by
  have hpart : ∀ t ∈ ts, ∃ part, part ≠ [] ∧ IsPart cs t.start t.stop part := by
    intro t ht
    obtain ⟨start, stop, part, hne, hpart, hstart, hstop⟩ := h.part t ht
    rw [hstart, hstop, Nat.zero_add, Nat.zero_add]
    exact ⟨part, hne, hpart⟩
  refine ⟨fun t ht => ?_, fun t ht => ?_, fun t ht => ?_, h.ordered, fun front c back hcs hc => ?_⟩
  · obtain ⟨part, -, hpart⟩ := hpart t ht
    exact ⟨part, hpart⟩
  · obtain ⟨part, -, hpart⟩ := hpart t ht
    exact hpart.bounds.2
  · obtain ⟨part, hne, -, -, -, -, hstop⟩ := hpart t ht
    exact hstop ▸ Nat.lt_add_of_pos_right (Text.byteLength_pos hne)
  · exact h.isBlank hcs (by simpa using hc)

end Covers

/-! ## Cuts -/

/-- The part of a text from one token to another has the lexemes of the tokens there, and it is what
is taken for their text. -/
theorem exists_part_of_tokens {cs : List Char} {before mid behind : List Token} (hne : mid ≠ [])
    (h : tokensFrom 0 cs = .ok (before ++ (mid ++ behind))) :
    ∃ part, IsPart cs (mid.head hne).start (mid.getLast hne).stop part ∧
      Lexes part (lexemes mid) [] ∧ sourceText cs (mid ++ behind) behind = String.ofList part := by
  obtain ⟨skipped, left, rfl, hleft⟩ := tokensFrom_append h
  obtain ⟨gap, body, back, first, last, rfl, -, hfirst, hstart, hlast, hstop, hbody⟩ :=
    body_of_tokensFrom hne hleft
  obtain rfl : mid.head hne = first := by simpa [List.head?_eq_some_head hne] using hfirst
  obtain rfl : mid.getLast hne = last := by simpa [List.getLast?_eq_some_getLast hne] using hlast
  have hpart : IsPart (skipped ++ (gap ++ body ++ back)) (mid.head hne).start
      (mid.getLast hne).stop body :=
    ⟨skipped ++ gap, back, by simp, by rw [hstart, Text.byteLength_append, Nat.zero_add], hstop⟩
  have htaken : (mid ++ behind).take ((mid ++ behind).length - behind.length) = mid := by simp
  obtain ⟨body', hbody', hcut⟩ := hbody.cut
  obtain rfl := List.append_cancel_right hbody'
  refine ⟨body, hpart, by simpa using hcut [] ⟨back, rfl⟩, ?_⟩
  simp only [sourceText, htaken, hfirst, hlast]
  rw [hpart.slice_eq]

/-- Wherever a text is cut at its tokens, it is cut between two characters: in front of the first
and behind the last of some tokens, or in front of a token that does not fit. -/
structure CutsWhole (cs : List Char) (ts : List Token) : Prop where
  between : ∀ before mid behind (hne : mid ≠ []), ts = before ++ (mid ++ behind) →
    ∃ part, IsPart cs (mid.head hne).start (mid.getLast hne).stop part ∧
      sourceText cs (mid ++ behind) behind = String.ofList part
  behind : ∀ before t behind wanted, ts = before ++ t :: behind →
    ∃ part, IsPart cs t.start (byteLength cs) part ∧
      misfit cs wanted (t :: behind) = .expected wanted (some ⟨String.ofList part, t.start⟩)

theorem cutsWhole_of_tokensFrom {cs : List Char} {ts : List Token} (h : tokensFrom 0 cs = .ok ts) :
    CutsWhole cs ts where
  between before mid behind hne hts := by
    obtain ⟨part, hpart, -, htext⟩ := exists_part_of_tokens hne (hts ▸ h)
    exact ⟨part, hpart, htext⟩
  behind before t behind wanted hts := by
    obtain ⟨part, ⟨front, back, rfl, hstart, -⟩, -⟩ :=
      exists_part_of_tokens (List.cons_ne_nil t []) (hts ▸ h)
    refine ⟨part ++ back, ⟨front, [], by simp, hstart, ?_⟩, ?_⟩
    · rw [show t.start = byteLength front from hstart]
      simp
    · rw [misfit, List.head?_cons, Option.map_some, show t.start = byteLength front from hstart,
        List.append_assoc, Text.dropBytes_byteLength_append]

end Sql

end TableQuery
