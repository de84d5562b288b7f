import Mathlib
import TableQuery.Number.Single
import TableQuery.Proofs.WholeDoubles

/-!
# Whole numbers rounded to doubles

A whole number with more than 53 significant bits is made the nearest double, one with an even
mantissa if it lies half way. The bits that are dropped leave two marks, whether they come to half a
unit and whether they come to anything else, and the marks are enough to round by.
-/

namespace TableQuery.Number

open Float.Model (Format UnpackedFloat totalExponent)
open Float.Model.UnpackedFloat (Sign ExtendedMantissa)

/-! ## Division by a power of two -/

theorem halfEven_eq (n k : Nat) :
    halfEven n k =
      if 2 ^ k < 2 * (n % 2 ^ k) ∨ 2 * (n % 2 ^ k) = 2 ^ k ∧ n / 2 ^ k % 2 = 1 then n / 2 ^ k + 1
      else n / 2 ^ k := by
  simp [halfEven]

theorem halfEven_mul (m k : Nat) : halfEven (m * 2 ^ k) k = m := by
  have hpos := Nat.two_pow_pos k
  rw [halfEven_eq, Nat.mul_mod_left, Nat.mul_div_cancel m hpos, if_neg (by omega)]

theorem halfEven_mono (k : Nat) : Monotone (halfEven · k) := by
  intro n n' h
  have hquotient : n / 2 ^ k ≤ n' / 2 ^ k := Nat.div_le_div_right h
  change halfEven n k ≤ halfEven n' k
  rw [halfEven_eq, halfEven_eq]
  rcases Nat.lt_or_eq_of_le hquotient with hlt | heq
  · split <;> split <;> omega
  · have hrest : n % 2 ^ k ≤ n' % 2 ^ k := by
      have h₁ := Nat.div_add_mod n (2 ^ k)
      have h₂ := Nat.div_add_mod n' (2 ^ k)
      rw [heq] at h₁
      omega
    rw [heq]
    split <;> split <;> omega

/-! ## The marks of dropped bits -/

/-- What an extended mantissa tells of a number divided by a power of two: the whole part, whether
the rest is half a unit or more, and whether it is something else than nothing and half a unit. -/
structure IsQuotient (em : ExtendedMantissa) (n k : Nat) : Prop where
  mantissa : em.mantissa = n / 2 ^ k
  roundBit : em.roundBit ↔ 2 ^ k ≤ 2 * (n % 2 ^ k)
  stickyBit : em.stickyBit ↔ n % 2 ^ k ≠ 0 ∧ 2 * (n % 2 ^ k) ≠ 2 ^ k

namespace IsQuotient

theorem exact (n : Nat) : IsQuotient ⟨n, false, false⟩ n 0 :=
  ⟨(Nat.div_one n).symm, by simp [Nat.mod_one], by simp [Nat.mod_one]⟩

variable {em : ExtendedMantissa} {n k : Nat}

/-- The bit that is dropped next says whether the new rest is half a unit or more; the old marks
together say whether there is anything else. -/
theorem shiftRightOne (h : IsQuotient em n k) : IsQuotient em.shiftRightOne n (k + 1) := by
  have hrest : n % 2 ^ (k + 1) = n % 2 ^ k + 2 ^ k * (n / 2 ^ k % 2) := by
    rw [Nat.pow_succ, Nat.mod_mul]
  have hbelow := Nat.mod_lt n (Nat.two_pow_pos k)
  obtain ⟨hmantissa, hround, hsticky⟩ := h
  refine ⟨?_, ?_, ?_⟩
  · rw [ExtendedMantissa.shiftRightOne, hmantissa, Nat.div_div_eq_div_mul, Nat.pow_succ]
  · rw [ExtendedMantissa.shiftRightOne, hmantissa, hrest, bne_iff_ne, Nat.pow_succ]
    rcases Nat.mod_two_eq_zero_or_one (n / 2 ^ k) with hbit | hbit <;> rw [hbit] <;> omega
  · rw [ExtendedMantissa.shiftRightOne, Bool.or_eq_true, hround, hsticky, hrest, Nat.pow_succ]
    rcases Nat.mod_two_eq_zero_or_one (n / 2 ^ k) with hbit | hbit <;> rw [hbit] <;> omega

theorem shiftRight (n k : Nat) :
    IsQuotient ((⟨n, false, false⟩ : ExtendedMantissa) >>> k) n k := by
  change IsQuotient (k.repeat ExtendedMantissa.shiftRightOne _) n k
  induction k with
  | zero => exact exact n
  | succ k ih => exact ih.shiftRightOne

/-- The marks are enough to round to the nearest whole number, a tie to the even one. -/
theorem roundedMantissa (h : IsQuotient em n k) : em.roundedMantissa = halfEven n k := by
  obtain ⟨m, r, s⟩ := em
  obtain ⟨hmantissa, hround, hsticky⟩ := h
  dsimp only at hmantissa hround hsticky
  have hpos := Nat.two_pow_pos k
  rw [halfEven_eq, ← hmantissa]
  cases r <;> cases s <;>
    simp only [Bool.false_eq_true, false_iff, true_iff] at hround hsticky
  · exact (if_neg (by omega)).symm
  · exact (if_neg (by omega)).symm
  · change m + m % 2 = _
    split <;> omega
  · exact (if_pos (by omega)).symm

end IsQuotient

/-! ## The doubles nearest to whole numbers -/

/-- The 53 leading bits of a whole number, rounded. They may come to one more bit. -/
def leading (n : Nat) : Nat :=
  halfEven (n * 2 ^ 53) (n.log2 + 1)

/-- The exponent of the double nearest to a whole number. -/
def nearestExponent (n : Nat) : Int :=
  if leading n = 2 ^ 53 then n.log2 - 51 else n.log2 - 52

/-- The mantissa of the double nearest to a whole number. -/
def nearestMantissa (n : Nat) : Nat :=
  if leading n = 2 ^ 53 then 2 ^ 52 else leading n

theorem leading_le (n : Nat) : leading n ≤ 2 ^ 53 := by
  have hlog := Nat.lt_log2_self (n := n)
  rw [← halfEven_mul (2 ^ 53) (n.log2 + 1)]
  refine halfEven_mono _ ?_
  rw [Nat.mul_comm]
  exact Nat.mul_le_mul_left _ hlog.le

/-- The leading bits become the mantissa, with one more place for them if they need it. -/
theorem leading_eq_scaled (n : Nat) :
    ∃ j : Nat, leading n = nearestMantissa n * 2 ^ j ∧
      (n.log2 : Int) - 52 = nearestExponent n - j := by
  unfold nearestMantissa nearestExponent
  split
  · next h => exact ⟨1, h, by omega⟩
  · exact ⟨0, (Nat.mul_one _).symm, (Int.sub_zero _).symm⟩

theorem normal_congr (s : Sign) {m m' : Nat} {e e' : Int} (h : IsNormal m e) (h' : IsNormal m' e')
    (hm : m = m') (he : e = e') : normal s h = normal s h' := by
  subst hm he
  rfl

section

variable {n : Nat} (hpos : 0 < n)

include hpos

theorem le_leading : 2 ^ 52 ≤ leading n := by
  have hlog := Nat.log2_self_le (Nat.pos_iff_ne_zero.1 hpos)
  rw [← halfEven_mul (2 ^ 52) (n.log2 + 1)]
  refine halfEven_mono _ ?_
  rw [Nat.pow_succ]
  omega

theorem isNormal_nearest (hlog : n.log2 ≤ 1022) :
    IsNormal (nearestMantissa n) (nearestExponent n) := by
  have hlower := le_leading hpos
  have hupper := leading_le n
  unfold nearestMantissa nearestExponent
  split
  · exact ⟨by omega, by omega, by omega, by omega⟩
  · exact ⟨by omega, by omega, by omega, by omega⟩

/-- A number is moved up by 53 places first, so that its leading bits stay whatever its length. -/
theorem shiftToTargetExponent_whole :
    ∃ em, UnpackedFloat.shiftToTargetExponent Format.binary64 (n * 2 ^ 53) (-53) .exact =
      (em, (n.log2 : Int) - 52) ∧ em.roundedMantissa = leading n := by
  have hlog := log2_mul_two_pow hpos 53
  have htarget :
      Format.binary64.targetExponent (totalExponent (n * 2 ^ 53) (-53)) = n.log2 - 52 := by
    unfold Format.targetExponent totalExponent
    rw [hlog]
    change max (((n.log2 + 53 : Nat) : Int) + 1 + -53 - (53 : Nat)) (-1074) = n.log2 - 52
    omega
  have hshift : ((n.log2 : Int) - 52 - -53).toNat = n.log2 + 1 := by omega
  have hexponent : (-53 : Int) + (n.log2 + 1 : Nat) = n.log2 - 52 := by omega
  refine ⟨_, ?_, (IsQuotient.shiftRight (n * 2 ^ 53) (n.log2 + 1)).roundedMantissa⟩
  unfold UnpackedFloat.shiftToTargetExponent UnpackedFloat.shiftToExponent
  rw [htarget]
  dsimp only
  rw [hshift, hexponent]
  rfl

theorem roundWithAccuracy_whole (hlog : n.log2 ≤ 1022) (s : Sign) :
    UnpackedFloat.roundWithAccuracy Format.binary64 s (n * 2 ^ 53) (-53) .exact =
      .finite s (nearestMantissa n) (nearestExponent n) (isNormal_nearest hpos hlog).pos := by
  obtain ⟨em, hfirst, hrounded⟩ := shiftToTargetExponent_whole hpos
  obtain ⟨j, hleading, hexponent⟩ := leading_eq_scaled n
  have hnormal := isNormal_nearest hpos hlog
  have hsecond := shiftToTargetExponent_exact hnormal j
  simp only [UnpackedFloat.roundWithAccuracy, hfirst, hrounded, hleading, hexponent, hsecond]
  exact dif_neg (Nat.pos_iff_ne_zero.1 hnormal.pos)

/-- A whole number is made a double with its leading bits, whether they are all or not. -/
theorem ofNat_eq_nearest (hlog : n.log2 ≤ 1022) :
    Float.ofNat n = normal .positive (isNormal_nearest hpos hlog) := by
  rcases Nat.lt_or_ge n (2 ^ 53) with h | h
  · have hshort := log2_le hpos h
    have hsplit : n * 2 ^ 53 = n * 2 ^ (52 - n.log2) * 2 ^ (n.log2 + 1) := by
      rw [Nat.mul_assoc, ← Nat.pow_add, show 52 - n.log2 + (n.log2 + 1) = 53 by omega]
    have hleading : leading n = n * 2 ^ (52 - n.log2) := by
      rw [leading, hsplit, halfEven_mul]
    have hupper := (isNormal_scaled hpos h).upper.ne
    rw [ofNat_eq_normal hpos h]
    refine normal_congr .positive _ _ ?_ ?_
    · rw [nearestMantissa, hleading, if_neg hupper]
    · rw [nearestExponent, hleading, if_neg hupper]
  · have hbits : n <<< Format.binary64.mantissaBits * 10 ^ (0 : Int).toNat = n * 2 ^ 53 := by
      rw [Nat.shiftLeft_eq]
      exact Nat.mul_one _
    change Float.ofScientific n false 0 = _
    rw [Float.ofScientific, dif_neg (fun hfast => Nat.not_lt.2 h hfast.1)]
    change Float.ofModel (.pack (UnpackedFloat.ofScientific Format.binary64 n 0)) = _
    rw [UnpackedFloat.ofScientific, dif_neg (Nat.pos_iff_ne_zero.1 hpos), if_neg (by decide),
      if_neg (by change ¬(0 : Int) < -(2048 + n.log2); omega), if_pos (by decide)]
    change Float.ofModel (.pack (UnpackedFloat.roundWithAccuracy Format.binary64 .positive
      (n <<< Format.binary64.mantissaBits * 10 ^ (0 : Int).toNat) (-53) .exact)) = _
    rw [hbits, roundWithAccuracy_whole hpos hlog]
    rfl

end

end TableQuery.Number
