import Mathlib
import TableQuery.Scalar.Arithmetic

/-!
# Arithmetic on integers

A sum, a difference, a product or a negative of 64-bit integers is exact where 64 bits suffice, and
a double elsewhere; only the least integer has no negative. A remainder is computed on 64-bit words,
and its steps never leave them: the remainder toward zero is smaller than the divisor, and where it
is moved on by the divisor the two have different signs.
-/

namespace TableQuery

namespace Number

variable {a b r : Int64}

/-! ## Remainders -/

theorem isOpposed_iff :
    isOpposed r b = true ↔ r.toInt < 0 ∧ 0 ≤ b.toInt ∨ 0 < r.toInt ∧ b.toInt < 0 := by
  have hzero : r ≠ 0 ↔ r.toInt ≠ 0 := by
    rw [Ne, ← Int64.toInt_inj, Int64.toInt_zero]
  simp only [isOpposed, Bool.and_eq_true, bne_iff_ne, ne_eq, decide_eq_decide, hzero,
    Int64.lt_iff_toInt_lt, Int64.toInt_zero]
  omega

/-- Words of different signs have a sum. -/
theorem toInt_add_of_isOpposed (h : isOpposed r b = true) : (r + b).toInt = r.toInt + b.toInt := by
  have hr := r.le_toInt
  have hr' := r.toInt_lt
  have hb := b.le_toInt
  have hb' := b.toInt_lt
  rw [isOpposed_iff] at h
  rw [Int64.toInt_add]
  exact Int.bmod_eq_of_le (by omega) (by omega)

/-- What the remainder with the sign of the divisor is: less than the divisor, at a multiple of the
divisor from the number divided. -/
structure IsFlooredRemainder (a b r : Int) : Prop where
  multiple : b ∣ a - r
  smaller : r.natAbs < b.natAbs
  sign : r = 0 ∨ r.sign = b.sign

theorem natAbs_tmod_lt (a : Int) {b : Int} (hb : b ≠ 0) : (a.tmod b).natAbs < b.natAbs := by
  rw [Int.natAbs_tmod]
  exact Nat.mod_lt _ (Int.natAbs_pos.2 hb)

theorem isFlooredRemainder_flooredRem (a : Int64) (hb : b ≠ 0) :
    IsFlooredRemainder a.toInt b.toInt (flooredRem a b).toInt := by
  have hzero : b.toInt ≠ 0 := by rwa [← Int64.toInt_zero, Ne, Int64.toInt_inj]
  have hrem := Int64.toInt_mod a b
  have hdvd : b.toInt ∣ a.toInt - (a % b).toInt := by
    rw [hrem]
    exact Int.dvd_self_sub_tmod
  have hlt := natAbs_tmod_lt a.toInt hzero
  rw [← hrem] at hlt
  unfold flooredRem
  dsimp only
  split
  · next hopposed =>
    have hsigns := isOpposed_iff.1 hopposed
    rw [toInt_add_of_isOpposed hopposed]
    refine ⟨?_, by omega, .inr ?_⟩
    · rw [← Int.sub_sub]
      exact Int.dvd_sub hdvd (Int.dvd_refl _)
    · rcases hsigns with ⟨hr, hb⟩ | ⟨hr, hb⟩
      · rw [Int.sign_eq_one_of_pos (by omega), Int.sign_eq_one_of_pos (by omega)]
      · rw [Int.sign_eq_neg_one_of_neg (by omega), Int.sign_eq_neg_one_of_neg hb]
  · next hopposed =>
    rw [isOpposed_iff] at hopposed
    refine ⟨hdvd, hlt, ?_⟩
    rcases Int.lt_trichotomy (a % b).toInt 0 with hr | hr | hr
    · exact .inr (by rw [Int.sign_eq_neg_one_of_neg hr, Int.sign_eq_neg_one_of_neg (by omega)])
    · exact .inl hr
    · exact .inr (by rw [Int.sign_eq_one_of_pos hr, Int.sign_eq_one_of_pos (by omega)])

end Number

namespace Scalar

/-- The exact result as an integer, or the given double where 64 bits do not hold it. -/
inductive IsExactOr (i : Int) (x : Float) : Scalar → Prop where
  | exact (n : Int64) (h : n.toInt = i) : IsExactOr i x (.int n)
  | rounded (h : i < -2 ^ 63 ∨ 2 ^ 63 ≤ i) : IsExactOr i x (.float x)

theorem isExactOr_exactOr (i : Int) (x : Float) : IsExactOr i x (exactOr i x) := by
  unfold exactOr
  cases h : Number.toInt64? i with
  | some n => exact .exact n (Number.toInt_of_toInt64? h)
  | none =>
    unfold Number.toInt64? at h
    split at h
    · cases h
    · next hrange =>
      have hmin : Int64.minValue.toInt = -2 ^ 63 := rfl
      have hmax : Int64.maxValue.toInt = 2 ^ 63 - 1 := rfl
      exact .rounded (by omega)

/-- Every integer but the least has a negative. -/
theorem negate_int (a : Int64) :
    (a = Int64.minValue → negate (.int a) = .ok (.float (-Number.toFloat a))) ∧
      (a ≠ Int64.minValue → ∃ n, negate (.int a) = .ok (.int n) ∧ n.toInt = -a.toInt) := by
  constructor
  · rintro rfl
    rfl
  · intro ha
    have hne : a.toInt ≠ -2 ^ 63 := fun h => ha (Int64.toInt_inj.1 h)
    have hlow := a.le_toInt
    have hhigh := a.toInt_lt
    have h := isExactOr_exactOr (-a.toInt) (-Number.toFloat a)
    change ∃ n, Except.ok (exactOr (-a.toInt) (-Number.toFloat a)) = .ok (.int n) ∧ _
    generalize exactOr (-a.toInt) (-Number.toFloat a) = s at h ⊢
    cases h with
    | exact n hn => exact ⟨n, rfl, hn⟩
    | rounded hrange => omega

/-- Sums, differences, products and negatives of integers are exact, or doubles where 64 bits do
not suffice. A remainder by zero is null; any other is an integer that lies from zero towards the
divisor, and both its steps stay within 64 bits. -/
theorem integers_stay_exact (a b : Int64) :
    (∃ s, binary .add (.int a) (.int b) = .ok s ∧
      IsExactOr (a.toInt + b.toInt) (Number.toFloat a + Number.toFloat b) s) ∧
    (∃ s, binary .sub (.int a) (.int b) = .ok s ∧
      IsExactOr (a.toInt - b.toInt) (Number.toFloat a - Number.toFloat b) s) ∧
    (∃ s, binary .mul (.int a) (.int b) = .ok s ∧
      IsExactOr (a.toInt * b.toInt) (Number.toFloat a * Number.toFloat b) s) ∧
    (a = Int64.minValue → negate (.int a) = .ok (.float (-Number.toFloat a))) ∧
    (a ≠ Int64.minValue → ∃ n, negate (.int a) = .ok (.int n) ∧ n.toInt = -a.toInt) ∧
    (b = 0 → binary .mod (.int a) (.int b) = .ok .null) ∧
    (b ≠ 0 → ∃ r, binary .mod (.int a) (.int b) = .ok (.int r) ∧
      Number.IsFlooredRemainder a.toInt b.toInt r.toInt ∧
      (a % b).toInt = a.toInt.tmod b.toInt ∧
      if Number.isOpposed (a % b) b then r = a % b + b ∧ r.toInt = (a % b).toInt + b.toInt
      else r = a % b) := by
  refine ⟨⟨_, rfl, isExactOr_exactOr _ _⟩, ⟨_, rfl, isExactOr_exactOr _ _⟩,
    ⟨_, rfl, isExactOr_exactOr _ _⟩, (negate_int a).1, (negate_int a).2, ?_, fun hb => ?_⟩
  · rintro rfl
    rfl
  · have hmod : binary .mod (.int a) (.int b) = .ok (.int (Number.flooredRem a b)) := by
      change Except.ok (if b = 0 then Scalar.null else .int (Number.flooredRem a b)) = _
      rw [if_neg hb]
    refine ⟨_, hmod, Number.isFlooredRemainder_flooredRem a hb, Int64.toInt_mod a b, ?_⟩
    unfold Number.flooredRem
    dsimp only
    split
    · next hopposed => exact ⟨rfl, Number.toInt_add_of_isOpposed hopposed⟩
    · rfl

/-- At the ends of 64 bits: the least integer by minus one leaves zero, its negative and its
predecessor are doubles, and the greatest integer by the least leaves minus one. -/
theorem extreme_integers_stay_exact :
    (Int64.minValue ≠ 0 ∧ Int64.maxValue ≠ Int64.minValue ∧ (-1 : Int64) ≠ 0) ∧
      binary .mod (.int Int64.minValue) (.int (-1)) = .ok (.int 0) ∧
      binary .mod (.int Int64.maxValue) (.int Int64.minValue) = .ok (.int (-1)) ∧
      negate (.int Int64.minValue) = .ok (.float (-Number.toFloat Int64.minValue)) ∧
      (∃ n, negate (.int Int64.maxValue) = .ok (.int n) ∧ n.toInt = -Int64.maxValue.toInt) := by
  have hmin : Int64.minValue ≠ 0 := by decide
  have hmax : Int64.maxValue ≠ Int64.minValue := by decide
  have hone : (-1 : Int64) ≠ 0 := by decide
  obtain ⟨-, -, -, hnegative, -, -, hleast⟩ := integers_stay_exact Int64.minValue (-1)
  obtain ⟨-, -, -, -, hexact, -, hgreatest⟩ := integers_stay_exact Int64.maxValue Int64.minValue
  obtain ⟨r, hr, -, -, hword⟩ := hleast hone
  obtain ⟨q, hq, -, -, hmoved⟩ := hgreatest hmin
  have hr0 : r = 0 := by
    rw [if_neg (by decide)] at hword
    rw [hword]
    decide
  have hq1 : q = -1 := by
    rw [if_pos (by decide)] at hmoved
    rw [hmoved.1]
    decide
  exact ⟨⟨hmin, hmax, hone⟩, hr0 ▸ hr, hq1 ▸ hq, hnegative rfl, hexact hmax⟩

end Scalar

end TableQuery
