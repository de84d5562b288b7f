import TableQuery.Proofs.Reading.RoundTrip
import TableQuery.Scalar.Order

/-!
# The texts of integers

The digits of a number are read on their own, and they become a double if no integer has that size;
only then is the sign in front of them applied. So an integer that is written and read again is the
same integer, but for the least one, which has no integer of its size. A double is read for that
one, and a double is equal to all the integers that are rounded to it.
-/

namespace TableQuery

/-- What the written form of an integer is read as. -/
def integerRead (i : Int64) : Scalar :=
  if i = Int64.minValue then .float (-Float.ofNat 9223372036854775808) else .int i

theorem integerRead_of_ne {i : Int64} (h : i ≠ Int64.minValue) : integerRead i = .int i :=
  if_neg h

/-- The size of the least integer is a double of its own, and its sign that of the double. -/
theorem Expr.parse_minValue :
    Expr.parse (Expr.literal (.int Int64.minValue)).text =
      .ok (.literal (.float (-Float.ofNat 9223372036854775808))) := by
  have hlexes : Sql.Lexes ((Expr.literal (.int Int64.minValue)).text.toList ++ []) _ [] :=
    Sql.lexes_negative (by decide) nofun
  rw [List.append_nil] at hlexes
  have hnegated : Sql.negated (.literal (Sql.numberLiteral (-Int64.minValue.toInt).toNat.repr)) =
      .literal (.float (-Float.ofNat 9223372036854775808)) := rfl
  have hsigned : Sql.Derives .signed _ _ :=
    .minus (.unsigned (.number (-Int64.minValue.toInt).toNat.repr))
  rw [hnegated] at hsigned
  have hnot : Sql.NotFirst .not [.sign .minus, .number (-Int64.minValue.toInt).toNat.repr] := by
    simp [Sql.Lexeme.isKeyword]
  exact Expr.parse_eq_ok_iff.2
    ⟨_, hlexes, .first (.first (.positive hnot (.bare (.first (.first hsigned)))))⟩

theorem Expr.parse_integer (i : Int64) :
    Expr.parse (Expr.literal (.int i)).text = .ok (.literal (integerRead i)) := by
  by_cases h : i = Int64.minValue
  · subst h
    exact parse_minValue
  · obtain ⟨ls, hls⟩ := Sql.Legible.literal (x := .int i) (by simpa [Scalar.isReadable] using h)
    rw [integerRead_of_ne h]
    exact hls.parse

/-- Every integer is less than `x`, equal to it or greater, as it is with `i`. -/
def ComparedExactly (i : Int64) (x : Scalar) : Prop :=
  ∀ j : Int64, (Scalar.int j).compare? x = some (compare j i)

theorem comparedExactly_integerRead {i : Int64} :
    ComparedExactly i (integerRead i) ↔ i ≠ Int64.minValue := by
  constructor
  · rintro h rfl
    have hnext := h (Int64.minValue + 1)
    have hequal : (Scalar.int (Int64.minValue + 1)).compare? (integerRead Int64.minValue) =
        some .eq := by
      decide +kernel
    cases hequal.symm.trans hnext
  · intro h j
    rw [integerRead_of_ne h]
    rfl

/-- Exactly the integers above the least one are read back from their texts, and exactly what is
read for them can be compared with integers as they can. -/
theorem integer_text_reads_back_iff (i : Int64) :
    Expr.parse (Expr.literal (.int i)).text = .ok (.literal (integerRead i)) ∧
      (Expr.parse (Expr.literal (.int i)).text = .ok (.literal (.int i)) ↔ i ≠ Int64.minValue) ∧
      (ComparedExactly i (integerRead i) ↔ i ≠ Int64.minValue) := by
  refine ⟨Expr.parse_integer i, ?_, comparedExactly_integerRead⟩
  rw [Expr.parse_integer]
  constructor
  · rintro h rfl
    cases h
  · intro h
    rw [integerRead_of_ne h]

/-- The text of the least integer is read, but not as that integer. -/
theorem least_integer_text_reads_as_double :
    ¬∀ i : Int64, Expr.parse (Expr.literal (.int i)).text = .ok (.literal (.int i)) := by
  intro h
  cases Expr.parse_minValue.symm.trans (h Int64.minValue)

end TableQuery
