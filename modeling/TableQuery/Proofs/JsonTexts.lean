import Mathlib.Control.Basic
import Mathlib.Data.Option.Basic
import Mathlib.Tactic.SplitIfs
import TableQuery.Json.Reader

/-!
# Reading written JSON

The compact form of a value without doubles, read again, is the value, if its brackets do not stand
deeper inside one another than the reader goes; a value with deeper brackets is not read at all. The
characters behind a value in a compact form end every number, so each part is read up to its end and
no further.
-/

namespace TableQuery.Json

/-! ## Strings -/

theorem hexFour?_hex4 {n : Nat} (h : n < 32) :
    ∃ a b c d, hex4 n = [a, b, c, d] ∧ hexFour? a b c d = some n := by
  have hall : ∀ n < 32, hex4 n = ['0', '0', (n / 16).digitChar, (n % 16).digitChar] ∧
      hexFour? '0' '0' (n / 16).digitChar (n % 16).digitChar = some n := by decide
  exact ⟨_, _, _, _, hall n h⟩

/-- The number of a character outside the two ranges of halves is read as that character, whatever
stands behind it. -/
theorem readString_number {a b c d : Char} {n : Nat} (h : hexFour? a b c d = some n)
    (hn : n < 0xD800) (rest : List Char) :
    readString ('\\' :: 'u' :: a :: b :: c :: d :: rest) =
      (readString rest).map fun (s, r) => (Char.ofNat n :: s, r) := by
  by_cases hnext : ∃ e f g h rest', rest = '\\' :: 'u' :: e :: f :: g :: h :: rest'
  · obtain ⟨e, f, g, h, rest', rfl⟩ := hnext
    rw [readString.eq_3, ‹hexFour? a b c d = some n›]
    dsimp only
    rw [if_neg (by omega), if_neg (by omega)]
  · have hlone := fun e f g h rest' hrest => hnext ⟨e, f, g, h, rest', hrest⟩
    rw [readString.eq_4 _ _ _ _ _ hlone, h]
    dsimp only
    rw [if_neg (by omega)]

theorem readString_letter {c x : Char} (h : unescape? c = some x) (rest : List Char) :
    readString ('\\' :: c :: rest) = (readString rest).map fun (s, r) => (x :: s, r) := by
  have hc : c ≠ 'u' := by
    rintro rfl
    cases h
  rw [readString.eq_5 c rest (fun _ _ _ _ _ _ _ _ _ hu => absurd hu hc)
    (fun _ _ _ _ _ hu => absurd hu hc), h]

theorem readString_plain {c : Char} (hquote : c ≠ '"') (hslash : c ≠ '\\') (hc : 32 ≤ c.toNat)
    (rest : List Char) :
    readString (c :: rest) = (readString rest).map fun (s, r) => (c :: s, r) := by
  rw [readString.eq_6 c rest hquote (fun _ _ _ _ _ _ _ _ _ hu => absurd hu hslash)
    (fun _ _ _ _ _ hu => absurd hu hslash) (fun _ _ hu => absurd hu hslash)]
  rw [if_neg (not_or.2 ⟨by omega, hslash⟩)]

/-- A character is written as a backslash with a letter, as its number, or as itself. -/
theorem escapeChar_cases (c : Char) :
    (∃ letter, escapeChar c = ['\\', letter] ∧ unescape? letter = some c) ∨
      (c.toNat < 32 ∧ escapeChar c = '\\' :: 'u' :: hex4 c.toNat) ∨
      (escapeChar c = [c] ∧ c ≠ '"' ∧ c ≠ '\\' ∧ 32 ≤ c.toNat) := by
  unfold escapeChar
  split_ifs with hquote hslash hline hreturn htab hback hfeed hlow
  · exact .inl ⟨'"', rfl, congrArg some hquote.symm⟩
  · exact .inl ⟨'\\', rfl, congrArg some hslash.symm⟩
  · exact .inl ⟨'n', rfl, congrArg some hline.symm⟩
  · exact .inl ⟨'r', rfl, congrArg some hreturn.symm⟩
  · exact .inl ⟨'t', rfl, congrArg some htab.symm⟩
  · exact .inl ⟨'b', rfl, congrArg some hback.symm⟩
  · exact .inl ⟨'f', rfl, congrArg some hfeed.symm⟩
  · exact .inr (.inl ⟨hlow, rfl⟩)
  · exact .inr (.inr ⟨rfl, hquote, hslash, Nat.not_lt.1 hlow⟩)

/-- A character as it is written inside a string is read as one character. -/
theorem readString_escapeChar (c : Char) (rest : List Char) :
    readString (escapeChar c ++ rest) = (readString rest).map fun (s, r) => (c :: s, r) := by
  rcases escapeChar_cases c with ⟨letter, hc, hletter⟩ | ⟨hlow, hc⟩ | ⟨hc, hquote, hslash, hplain⟩
  · rw [hc]
    exact readString_letter hletter rest
  · obtain ⟨x₁, x₂, x₃, x₄, hdigits, hvalue⟩ := hexFour?_hex4 hlow
    have hread := readString_number hvalue (by omega) rest
    rw [Char.ofNat_toNat] at hread
    rw [hc, hdigits]
    exact hread
  · rw [hc]
    exact readString_plain hquote hslash hplain rest

theorem readString_writeString (s : String) (rest : List Char) :
    readString (s.toList.flatMap escapeChar ++ '"' :: rest) = some (s.toList, rest) := by
  induction s.toList with
  | nil => rfl
  | cons c cs ih => rw [List.flatMap_cons, List.append_assoc, readString_escapeChar, ih]; rfl

/-! ## Numbers -/

/-- Whether what follows may stand behind a value in a compact form. -/
def EndsValue (rest : List Char) : Prop :=
  ∀ c ∈ rest.head?, c ∈ [',', ']', '\x7d']

theorem endsValue_nil : EndsValue [] :=
  nofun

theorem endsValue_cons {c : Char} {rest : List Char} (h : c ∈ [',', ']', '\x7d']) :
    EndsValue (c :: rest) := by
  rintro _ ⟨⟩
  exact h

/-- What ends a value ends the digits of a number. -/
theorem EndsValue.isDigit_eq_false {rest : List Char} (h : EndsValue rest) :
    ∀ c ∈ rest.head?, c.isDigit = false := by
  intro c hc
  have hend := h c hc
  simp only [List.mem_cons, List.not_mem_nil, or_false] at hend
  rcases hend with rfl | rfl | rfl <;> rfl

theorem exists_toDigits_eq_cons (n : Nat) :
    ∃ d ds, Nat.toDigits 10 n = d :: ds ∧ d.isDigit = true := by
  cases hds : Nat.toDigits 10 n with
  | nil => exact absurd hds Nat.toDigits_ne_nil
  | cons d ds =>
    exact ⟨d, ds, rfl, Nat.isDigit_of_mem_toDigits (by decide) (by decide)
      (hds ▸ List.mem_cons_self)⟩

/-- The value of digits is not less than the value that they go on from. -/
theorem le_ofDigitChars (ds : List Char) (n : Nat) : n ≤ Nat.ofDigitChars 10 ds n := by
  induction ds generalizing n with
  | nil => exact Nat.le_refl n
  | cons d ds ih =>
    rw [Nat.ofDigitChars_cons]
    exact Nat.le_trans (by omega) (ih _)

/-- Digits are collected up to their end if their value fits 64 bits. -/
theorem collect_digits {ds rest : List Char} (hds : ∀ c ∈ ds, c.isDigit = true)
    (hrest : ∀ c ∈ rest.head?, c.isDigit = false) {n : Nat}
    (hn : Nat.ofDigitChars 10 ds n < UInt64.size) (taken : Nat) :
    collect false n taken 0 (ds ++ rest) =
      (Nat.ofDigitChars 10 ds n, taken + ds.length, 0, rest) := by
  induction ds generalizing n taken with
  | nil =>
    cases rest with
    | nil => rfl
    | cons c rest =>
      simp [collect, hrest c rfl]
  | cons d ds ih =>
    obtain ⟨hd, hds⟩ := List.forall_mem_cons.1 hds
    rw [Nat.ofDigitChars_cons] at hn ⊢
    have hnext := Nat.lt_of_le_of_lt (le_ofDigitChars ds _) hn
    have hfits : ¬10 * n + (d.toNat - '0'.toNat) > 18446744073709551615 := by
      have : UInt64.size = 18446744073709551616 := rfl
      omega
    rw [List.cons_append, collect, if_pos hd]
    simp only [Bool.false_or, decide_eq_true_eq, if_neg hfits]
    rw [ih hds hn, List.length_cons, Nat.add_right_comm, Nat.add_assoc]

/-- The digits of a number begin with zero only if it is zero. -/
theorem toDigits_eq_zero_cons {n : Nat} {ds : List Char} (h : Nat.toDigits 10 n = '0' :: ds) :
    ds = [] := by
  induction n using Nat.strongRecOn generalizing ds with
  | ind n ih =>
    by_cases hn : n < 10
    · rw [Nat.toDigits_of_lt_base hn] at h
      exact (List.cons.inj h).2.symm
    · rw [Nat.toDigits_of_base_le (by decide) (by omega)] at h
      obtain ⟨d, more, hmore, -⟩ := exists_toDigits_eq_cons (n / 10)
      rw [hmore] at h
      obtain ⟨rfl, -⟩ := List.cons.inj h
      obtain rfl := ih (n / 10) (by omega) hmore
      have hvalue := Nat.ofDigitChars_ten_toDigits (n := n / 10)
      rw [hmore] at hvalue
      have hzero : Nat.ofDigitChars 10 ['0'] 0 = 0 := by decide
      omega

/-- The digits of a number of 64 bits are read as a whole number; behind a minus sign, if the number
is not zero and has 64 bits with its sign. -/
theorem readNumber_toDigits {n : Nat} (hn : n < UInt64.size) {rest : List Char}
    (hrest : EndsValue rest) {negative : Bool}
    (hnegative : negative = true → 0 < n ∧ n ≤ 9223372036854775808) :
    readNumber negative (Nat.toDigits 10 n ++ rest) =
      some (.int (if negative then -(n : Int) else n), rest) := by
  have hdigits : ∀ c ∈ Nat.toDigits 10 n, c.isDigit = true := fun _ =>
    Nat.isDigit_of_mem_toDigits (by decide) (by decide)
  have hcollect := collect_digits hdigits hrest.isDigit_eq_false (n := 0)
    (by rwa [Nat.ofDigitChars_ten_toDigits]) 0
  rw [Nat.ofDigitChars_ten_toDigits] at hcollect
  obtain ⟨d, ds, hds, hd⟩ := exists_toDigits_eq_cons n
  have hzero : (d == '0' && (ds ++ rest).head?.any Char.isDigit) = false := by
    by_cases hfirst : d = '0'
    · subst hfirst
      obtain rfl := toDigits_eq_zero_cons hds
      cases rest with
      | nil => rfl
      | cons c rest => simp [hrest.isDigit_eq_false c rfl]
    · simp [hfirst]
  rw [hds, List.cons_append] at hcollect ⊢
  simp only [readNumber, List.head?_cons, Option.bind_eq_bind, Option.bind_some, hd, hcollect,
    List.drop_succ_cons, List.drop_zero, hzero, guard_true, Bool.not_false, Option.pure_def]
  split
  · exact absurd (hrest '.' rfl) (by decide)
  · exact absurd (hrest 'e' rfl) (by decide)
  · exact absurd (hrest 'E' rfl) (by decide)
  · rw [if_neg (by decide)]
    cases negative with
    | false => rfl
    | true =>
      obtain ⟨hpos, hmin⟩ := hnegative rfl
      rw [if_neg (by decide), if_neg (by omega), if_pos rfl]

/-! ## Values -/

mutual

/-- Whether a value is told by its compact form: it has no doubles, and its whole numbers have 64
bits with sign or without. -/
def isExact : Json → Bool
  | .null => true
  | .bool _ => true
  | .int i => decide (Int64.minValue.toInt ≤ i) && decide (i < UInt64.size)
  | .float _ => false
  | .str _ => true
  | .arr items => areExact items
  | .obj fields => fieldsAreExact fields

def areExact : List Json → Bool
  | [] => true
  | x :: xs => isExact x && areExact xs

def fieldsAreExact : List (String × Json) → Bool
  | [] => true
  | (_, x) :: rest => isExact x && fieldsAreExact rest

end

/-! ### First characters -/

theorem skipSpaces_cons {c : Char} (h : isSpace c = false) (cs : List Char) :
    skipSpaces (c :: cs) = c :: cs := by
  simp [skipSpaces, h]

theorem isSpace_of_isDigit {c : Char} (h : c.isDigit = true) : isSpace c = false := by
  cases hspace : isSpace c with
  | false => rfl
  | true =>
    simp only [isSpace, Bool.or_eq_true, decide_eq_true_eq] at hspace
    rcases hspace with ((rfl | rfl) | rfl) | rfl <;> cases h

/-- A value that begins with a digit is a number. -/
theorem readValue_digit {c : Char} (h : c.isDigit = true) (depth : Nat) (cs : List Char) :
    readValue depth (c :: cs) = readNumber false (c :: cs) := by
  rw [readValue.eq_def]
  dsimp only
  rw [skipSpaces_cons (isSpace_of_isDigit h)]
  split
  case h_8 => rfl
  all_goals
    next heq =>
      obtain ⟨rfl, -⟩ := List.cons.inj heq
      cases h

theorem readValue_minus (depth : Nat) (cs : List Char) :
    readValue depth ('-' :: cs) = readNumber true cs := by
  rw [readValue.eq_def]
  rfl

theorem readValue_quote (depth : Nat) (cs : List Char) :
    readValue depth ('"' :: cs) =
      (readString cs).map fun (s, r) => (.str (String.ofList s), r) := by
  rw [readValue.eq_def]
  rfl

theorem readValue_items {c : Char} (hspace : isSpace c = false) (hc : c ≠ ']') (depth : Nat)
    (cs : List Char) :
    readValue (depth + 1) ('[' :: c :: cs) =
      (readItems (readValue depth) (c :: cs).length (c :: cs)).map fun (xs, r) => (.arr xs, r) := by
  rw [readValue.eq_def]
  dsimp only
  rw [skipSpaces_cons (c := '[') rfl]
  split
  case h_6 heq =>
    obtain rfl := (List.cons.inj heq).2
    rw [skipSpaces_cons hspace]
    split
    · next heq => exact absurd (List.cons.inj heq).1 hc
    · rfl
  case h_8 hother _ => exact (hother _ rfl).elim
  all_goals
    next heq => exact absurd (List.cons.inj heq).1 (by decide)

theorem readValue_fields (depth : Nat) (cs : List Char) :
    readValue (depth + 1) ('\x7b' :: '"' :: cs) =
      (readFields (readValue depth) ('"' :: cs).length ('"' :: cs)).map fun (xs, r) =>
        (.obj xs, r) := by
  rw [readValue.eq_def]
  rfl

theorem readValue_int {i : Int} (hi : isExact (.int i) = true) (depth : Nat) {rest : List Char}
    (hrest : EndsValue rest) : readValue depth (writeInt i ++ rest) = some (.int i, rest) := by
  obtain ⟨hmin, hmax⟩ := Bool.and_eq_true_iff.1 hi
  have hsize : UInt64.size = 18446744073709551616 := rfl
  cases i with
  | ofNat n =>
    have hn := Int.ofNat_lt.1 (of_decide_eq_true hmax)
    obtain ⟨d, ds, hds, hd⟩ := exists_toDigits_eq_cons n
    rw [writeInt, hds, List.cons_append, readValue_digit hd, ← List.cons_append, ← hds]
    exact readNumber_toDigits hn hrest nofun
  | negSucc n =>
    have hleast : Int64.minValue.toInt = -9223372036854775808 := rfl
    have hn := of_decide_eq_true hmin
    rw [writeInt, List.cons_append, readValue_minus]
    exact readNumber_toDigits (by omega) hrest fun _ => ⟨by omega, by omega⟩

/-- A compact form begins neither with a blank nor with a closing bracket. -/
theorem exists_writeCompact_eq_cons {x : Json} (hx : x.isExact = true) :
    ∃ c cs, x.writeCompact = c :: cs ∧ isSpace c = false ∧ c ≠ ']' := by
  cases x with
  | null => exact ⟨'n', _, rfl, rfl, by decide⟩
  | bool b => cases b <;> exact ⟨_, _, rfl, rfl, by decide⟩
  | int i =>
    cases i with
    | ofNat n =>
      obtain ⟨d, ds, hds, hd⟩ := exists_toDigits_eq_cons n
      refine ⟨d, ds, hds, isSpace_of_isDigit hd, ?_⟩
      rintro rfl
      cases hd
    | negSucc n => exact ⟨'-', _, rfl, rfl, by decide⟩
  | float => cases hx
  | str s => exact ⟨_, _, rfl, rfl, by decide⟩
  | arr items => exact ⟨_, _, rfl, rfl, by decide⟩
  | obj fields => exact ⟨_, _, rfl, rfl, by decide⟩

/-! ### Items and fields -/

/-- A value is read from its compact form, up to its end, exactly if the reader goes so deep. -/
def ReadsBack (x : Json) : Prop :=
  ∀ depth rest, EndsValue rest →
    readValue depth (x.writeCompact ++ rest) = if x.depth ≤ depth then some (x, rest) else none

/-- Each item but the last has a comma behind it. -/
theorem length_le_separated (texts : List (List Char)) :
    texts.length ≤ (separated [','] texts).length + 1 := by
  fun_induction separated [','] texts with
  | case1 => exact Nat.zero_le _
  | case2 x => exact Nat.le_add_left 1 x.length
  | case3 x y rest ih =>
    simp only [List.length_append, List.length_cons, List.length_nil] at ih ⊢
    omega

theorem length_compactItems (items : List Json) : (compactItems items).length = items.length := by
  induction items with
  | nil => rfl
  | cons x items ih => rw [compactItems, List.length_cons, List.length_cons, ih]

theorem length_compactFields (fields : List (String × Json)) :
    (compactFields fields).length = fields.length := by
  induction fields with
  | nil => rfl
  | cons f fields ih => rw [compactFields, List.length_cons, List.length_cons, ih]

section

variable {item : List Char → Option (Json × List Char)} {n : Nat} {x : Json} {cs r : List Char}

theorem readItems_none (h : item cs = none) : readItems item (n + 1) cs = none := by
  rw [readItems, h]
  rfl

theorem readItems_last (h : item cs = some (x, ']' :: r)) :
    readItems item (n + 1) cs = some ([x], r) := by
  rw [readItems, h]
  rfl

theorem readItems_more (h : item cs = some (x, ',' :: r)) :
    readItems item (n + 1) cs = (readItems item n r).map fun (xs, r) => (x :: xs, r) := by
  rw [readItems, h]
  change (readItems item n r).bind _ = _
  cases readItems item n r <;> rfl

/-- A field is read as its key, and then as a value. -/
theorem readFields_key (key : String) (cs : List Char) :
    readFields item (n + 1) (writeString key ++ ':' :: cs) = (item cs).bind fun (x, r) =>
      match skipSpaces r with
      | ',' :: r => (readFields item n r).bind fun (xs, r) => some ((key, x) :: xs, r)
      | '\x7d' :: r => some ([(key, x)], r)
      | _ => none := by
  have htext : writeString key ++ ':' :: cs =
      '"' :: (key.toList.flatMap escapeChar ++ '"' :: ':' :: cs) := by
    simp [writeString]
  rw [htext, readFields, skipSpaces_cons rfl]
  change (readString (key.toList.flatMap escapeChar ++ '"' :: ':' :: cs)).bind _ = _
  rw [readString_writeString, Option.bind_some]
  dsimp only
  rw [skipSpaces_cons rfl, String.ofList_toList]
  rfl

theorem readFields_none {key : String} (h : item cs = none) :
    readFields item (n + 1) (writeString key ++ ':' :: cs) = none := by
  rw [readFields_key, h]
  rfl

theorem readFields_last {key : String} (h : item cs = some (x, '\x7d' :: r)) :
    readFields item (n + 1) (writeString key ++ ':' :: cs) = some ([(key, x)], r) := by
  rw [readFields_key, h]
  rfl

theorem readFields_more {key : String} (h : item cs = some (x, ',' :: r)) :
    readFields item (n + 1) (writeString key ++ ':' :: cs) =
      (readFields item n r).map fun (xs, r) => ((key, x) :: xs, r) := by
  rw [readFields_key, h]
  change (readFields item n r).bind _ = _
  cases readFields item n r <;> rfl

end

/-- Items that are read back one by one are read back together. -/
theorem readItems_compact {depth n : Nat} {x : Json} {xs : List Json}
    (h : ∀ y ∈ x :: xs, y.ReadsBack) (hn : xs.length < n) (rest : List Char) :
    readItems (readValue depth) n (separated [','] (compactItems (x :: xs)) ++ ']' :: rest) =
      if depthOfItems (x :: xs) ≤ depth then some (x :: xs, rest) else none := by
  obtain ⟨n, rfl⟩ := Nat.exists_eq_add_one.2 (Nat.zero_lt_of_lt hn)
  induction xs generalizing x n with
  | nil =>
    have hread := h x List.mem_cons_self depth (']' :: rest) (endsValue_cons (by decide))
    simp only [compactItems, separated, depthOfItems, Nat.max_zero]
    split at hread
    · next hdepth => rw [readItems_last hread, if_pos hdepth]
    · next hdepth => rw [readItems_none hread, if_neg hdepth]
  | cons y ys ih =>
    obtain ⟨n, rfl⟩ := Nat.exists_eq_add_one.2 (Nat.zero_lt_of_lt (Nat.lt_of_succ_lt_succ hn))
    obtain ⟨hx, hys⟩ := List.forall_mem_cons.1 h
    have hmore := ih hys n (Nat.lt_of_succ_lt_succ hn)
    have htext : separated [','] (compactItems (x :: y :: ys)) ++ ']' :: rest =
        x.writeCompact ++ ',' :: (separated [','] (compactItems (y :: ys)) ++ ']' :: rest) := by
      simp [compactItems, separated]
    have hread := hx depth (',' :: (separated [','] (compactItems (y :: ys)) ++ ']' :: rest))
      (endsValue_cons (by decide))
    rw [htext, depthOfItems]
    by_cases hdepth : x.depth ≤ depth
    · rw [if_pos hdepth] at hread
      rw [readItems_more hread, hmore]
      simp only [Nat.max_le, hdepth, true_and]
      split <;> rfl
    · rw [if_neg hdepth] at hread
      rw [readItems_none hread, if_neg fun hle => hdepth (Nat.max_le.1 hle).1]

/-- Fields whose values are read back one by one are read back together. -/
theorem readFields_compact {depth n : Nat} {f : String × Json} {fs : List (String × Json)}
    (h : ∀ g ∈ f :: fs, g.2.ReadsBack) (hn : fs.length < n) (rest : List Char) :
    readFields (readValue depth) n (separated [','] (compactFields (f :: fs)) ++ '\x7d' :: rest) =
      if depthOfFields (f :: fs) ≤ depth then some (f :: fs, rest) else none := by
  obtain ⟨n, rfl⟩ := Nat.exists_eq_add_one.2 (Nat.zero_lt_of_lt hn)
  induction fs generalizing f n with
  | nil =>
    have hread := h f List.mem_cons_self depth ('\x7d' :: rest) (endsValue_cons (by decide))
    simp only [compactFields, separated, depthOfFields, Nat.max_zero, List.append_assoc,
      List.cons_append]
    split at hread
    · next hdepth => rw [readFields_last hread, if_pos hdepth]
    · next hdepth => rw [readFields_none hread, if_neg hdepth]
  | cons g gs ih =>
    obtain ⟨n, rfl⟩ := Nat.exists_eq_add_one.2 (Nat.zero_lt_of_lt (Nat.lt_of_succ_lt_succ hn))
    obtain ⟨hf, hgs⟩ := List.forall_mem_cons.1 h
    have hmore := ih hgs n (Nat.lt_of_succ_lt_succ hn)
    have htext : separated [','] (compactFields (f :: g :: gs)) ++ '\x7d' :: rest =
        writeString f.1 ++ ':' :: (f.2.writeCompact ++
          ',' :: (separated [','] (compactFields (g :: gs)) ++ '\x7d' :: rest)) := by
      simp [compactFields, separated]
    have hread := hf depth (',' :: (separated [','] (compactFields (g :: gs)) ++ '\x7d' :: rest))
      (endsValue_cons (by decide))
    rw [htext, depthOfFields]
    by_cases hdepth : f.2.depth ≤ depth
    · rw [if_pos hdepth] at hread
      rw [readFields_more hread, hmore]
      simp only [Nat.max_le, hdepth, true_and]
      split <;> rfl
    · rw [if_neg hdepth] at hread
      rw [readFields_none hread, if_neg fun hle => hdepth (Nat.max_le.1 hle).1]

/-- A list is read back if its items are. -/
theorem ReadsBack.arr {items : List Json} (h : ∀ x ∈ items, x.ReadsBack)
    (hitems : areExact items = true) : (arr items).ReadsBack := by
  intro depth rest _
  cases depth with
  | zero => rfl
  | succ depth =>
    cases items with
    | nil =>
      rw [readValue.eq_def]
      rfl
    | cons x xs =>
      obtain ⟨c, cs, hfirst, hspace, hc⟩ :=
        exists_writeCompact_eq_cons (Bool.and_eq_true_iff.1 hitems).1
      obtain ⟨cs', htext⟩ : ∃ cs', separated [','] (compactItems (x :: xs)) ++ ']' :: rest =
          c :: cs' := by
        cases xs <;> simp [compactItems, separated, hfirst]
      have hlength :
          xs.length < (separated [','] (compactItems (x :: xs)) ++ ']' :: rest).length := by
        have := length_le_separated (compactItems (x :: xs))
        rw [length_compactItems, List.length_cons] at this
        rw [List.length_append, List.length_cons]
        omega
      rw [writeCompact, List.append_assoc, List.cons_append, List.singleton_append, htext,
        readValue_items hspace hc, ← htext, readItems_compact h hlength, Json.depth]
      simp only [Nat.add_le_add_iff_right]
      split <;> rfl

/-- An object is read back if the values of its fields are. -/
theorem ReadsBack.obj {fields : List (String × Json)} (h : ∀ f ∈ fields, f.2.ReadsBack) :
    (obj fields).ReadsBack := by
  intro depth rest _
  cases depth with
  | zero => rfl
  | succ depth =>
    cases fields with
    | nil =>
      rw [readValue.eq_def]
      rfl
    | cons f fs =>
      obtain ⟨cs, htext⟩ : ∃ cs, separated [','] (compactFields (f :: fs)) ++ '\x7d' :: rest =
          '"' :: cs := by
        cases fs <;> simp [compactFields, separated, writeString]
      have hlength :
          fs.length < (separated [','] (compactFields (f :: fs)) ++ '\x7d' :: rest).length := by
        have := length_le_separated (compactFields (f :: fs))
        rw [length_compactFields, List.length_cons] at this
        rw [List.length_append, List.length_cons]
        omega
      rw [writeCompact, List.append_assoc, List.cons_append, List.singleton_append, htext,
        readValue_fields, ← htext, readFields_compact h hlength, Json.depth]
      simp only [Nat.add_le_add_iff_right]
      split <;> rfl

mutual

theorem readsBack (x : Json) (hx : x.isExact = true) : x.ReadsBack := by
  cases x with
  | null =>
    intro depth rest _
    rw [readValue.eq_def]
    rfl
  | bool b =>
    intro depth rest _
    rw [readValue.eq_def]
    cases b <;> rfl
  | int i =>
    intro depth rest hrest
    exact readValue_int hx depth hrest
  | float => cases hx
  | str s =>
    intro depth rest _
    rw [writeCompact, writeString, List.append_assoc, List.cons_append, List.singleton_append,
      readValue_quote, readString_writeString, Option.map_some]
    dsimp only
    rw [String.ofList_toList, Json.depth, if_pos (Nat.zero_le depth)]
  | arr items => exact .arr (readsBack_items items hx) hx
  | obj fields => exact .obj (readsBack_fields fields hx)

theorem readsBack_items (items : List Json) (h : areExact items = true) :
    ∀ x ∈ items, x.ReadsBack := by
  cases items with
  | nil => nofun
  | cons x items =>
    obtain ⟨hx, hitems⟩ := Bool.and_eq_true_iff.1 h
    exact List.forall_mem_cons.2 ⟨readsBack x hx, readsBack_items items hitems⟩

theorem readsBack_fields (fields : List (String × Json)) (h : fieldsAreExact fields = true) :
    ∀ f ∈ fields, f.2.ReadsBack := by
  cases fields with
  | nil => nofun
  | cons f fields =>
    obtain ⟨hx, hfields⟩ := Bool.and_eq_true_iff.1 h
    exact List.forall_mem_cons.2 ⟨readsBack f.2 hx, readsBack_fields fields hfields⟩

end

/-- A whole text that was written from a value is read as that value unless brackets stand more than
127 deep inside one another; then it is refused. -/
theorem read?_compact {x : Json} (hx : x.isExact = true) :
    read? x.compact = if x.depth ≤ 127 then some x else none := by
  have hread := readsBack x hx 127 [] endsValue_nil
  rw [List.append_nil] at hread
  rw [read?, compact, String.toList_ofList, hread]
  by_cases hdepth : x.depth ≤ 127
  · rw [if_pos hdepth, if_pos hdepth]
    rfl
  · rw [if_neg hdepth, if_neg hdepth]

end TableQuery.Json
