import Mathlib
import TableQuery.Number.Dyadic

/-!
# Whole numbers as doubles

A double has 53 significant bits, so every whole number up to `2 ^ 53` is a double. Made a double,
such a number keeps its bits, moved up to the leading place; the exponent says how far they were
moved, and reading the double as a whole number moves them back.
-/

namespace TableQuery.Number

open Float.Model (Format UnpackedFloat totalExponent)
open Float.Model.UnpackedFloat (Sign ExtendedMantissa)

/-! ## Doubles with a leading bit -/

/-- Zeros after the bits of a number move its leading bit up. -/
theorem log2_mul_two_pow {n : Nat} (hpos : 0 < n) (j : Nat) :
    (n * 2 ^ j).log2 = n.log2 + j := by
  have hzeros := Nat.mul_pos hpos (Nat.two_pow_pos j)
  refine (Nat.log2_eq_iff (Nat.pos_iff_ne_zero.1 hzeros)).2 ⟨?_, ?_⟩
  · rw [Nat.pow_add]
    exact Nat.mul_le_mul_right _ (Nat.log2_self_le (Nat.pos_iff_ne_zero.1 hpos))
  · rw [Nat.add_right_comm, Nat.pow_add]
    exact Nat.mul_lt_mul_of_pos_right Nat.lt_log2_self (Nat.two_pow_pos j)

/-- A mantissa with 53 bits, the leading one set, and an exponent for it. -/
structure IsNormal (m : Nat) (e : Int) : Prop where
  lower : 2 ^ 52 ≤ m
  upper : m < 2 ^ 53
  least : -1074 ≤ e
  most : e ≤ 971

namespace IsNormal

variable {m : Nat} {e : Int}

theorem pos (h : IsNormal m e) : 0 < m :=
  Nat.lt_of_lt_of_le (by decide) h.lower

theorem log2 (h : IsNormal m e) : m.log2 = 52 :=
  (Nat.log2_eq_iff (Nat.pos_iff_ne_zero.1 h.pos)).2 ⟨h.lower, h.upper⟩

end IsNormal

/-- The double `± m · 2 ^ e`. -/
def normal (s : Sign) {m : Nat} {e : Int} (h : IsNormal m e) : Float :=
  .ofModel (.pack (.finite s m e h.pos))

section

variable (s : Sign) {m : Nat} {e : Int} (h : IsNormal m e)

theorem toNat_append {v w : Nat} (x : BitVec v) (y : BitVec w) :
    (x ++ y).toNat = x.toNat * 2 ^ w + y.toNat := by
  rw [BitVec.toNat_append, ← Nat.shiftLeft_add_eq_or_of_lt y.isLt, Nat.shiftLeft_eq]

/-- The exponent of a double as it is stored. -/
def storedExponent (e : Int) : BitVec Format.binary64.exponentBits :=
  BitVec.ofNat 11 (e + 1075).toNat

/-- The mantissa of a double as it is stored, without the leading bit. -/
def storedMantissa (m : Nat) : BitVec Format.binary64.mantissaBitsWithoutImplicit :=
  BitVec.ofNat 52 m

include h in
theorem toNat_storedExponent : (storedExponent e).toNat = (e + 1075).toNat := by
  obtain ⟨-, -, hleast, hmost⟩ := h
  change (e + 1075).toNat % 2 ^ 11 = _
  omega

include h in
theorem toNat_storedMantissa : (storedMantissa m).toNat = m - 2 ^ 52 := by
  obtain ⟨hlower, hupper, -, -⟩ := h
  change m % 2 ^ 52 = _
  omega

theorem pack_normal :
    UnpackedFloat.pack Format.binary64 (.finite s m e h.pos) =
      UnpackedFloat.packComponents Format.binary64 s (storedExponent e) (storedMantissa m) := by
  have hbits : m.log2 + 1 = Format.binary64.mantissaBits := by
    rw [h.log2]
    rfl
  obtain ⟨-, -, hleast, hmost⟩ := h
  have hstored : (e + Format.binary64.exponentBias +
      Format.binary64.mantissaBitsWithoutImplicit).toNat = (e + 1075).toNat := by
    change (e + 1023 + 52).toNat = _
    rw [Int.add_assoc]
    rfl
  have hfits : ¬2 ^ Format.binary64.exponentBits ≤ (e + 1075).toNat + 1 := by
    change ¬2048 ≤ (e + 1075).toNat + 1
    omega
  simp only [UnpackedFloat.pack, hstored, if_neg hfits, if_pos hbits]
  rfl

/-- The bits of a double: its sign, its exponent, and its mantissa without the leading bit. -/
theorem toNat_toBits_normal :
    (normal s h).toBits.toNat =
      s.toBitVec.toNat * 2 ^ 63 + (e + 1075).toNat * 2 ^ 52 + (m - 2 ^ 52) := by
  change (UnpackedFloat.pack Format.binary64 (.finite s m e h.pos)).toNat = _
  rw [pack_normal s h, UnpackedFloat.packComponents, toNat_append, toNat_append,
    toNat_storedExponent h, toNat_storedMantissa h]
  change (s.toBitVec.toNat * 2 ^ 11 + (e + 1075).toNat) * 2 ^ 52 + (m - 2 ^ 52) = _
  omega

/-- The parts of a double can be read off its bits. -/
theorem parts_normal :
    (normal s h).toBits.toNat / 2 ^ 63 = s.toBitVec.toNat ∧
      (normal s h).toBits.toNat / 2 ^ 52 % 2 ^ 11 = (e + 1075).toNat ∧
      (normal s h).toBits.toNat % 2 ^ 52 = m - 2 ^ 52 := by
  have hbits := toNat_toBits_normal s h
  have hs := s.toBitVec.isLt
  obtain ⟨hlower, hupper, hleast, hmost⟩ := h
  omega

theorem ofFloat?_normal : Dyadic.ofFloat? (normal s h) = some ⟨s == .negative, m, e⟩ := by
  obtain ⟨hsign, hexponent, hmantissa⟩ := parts_normal s h
  obtain ⟨hlower, hupper, hleast, hmost⟩ := h
  have hnegative : (s.toBitVec.toNat == 1) = (s == .negative) := by
    cases s <;> rfl
  unfold Dyadic.ofFloat?
  change (if (normal s _).toBits.toNat / 2 ^ 52 % 2 ^ 11 = 2047 then none
    else if (normal s _).toBits.toNat / 2 ^ 52 % 2 ^ 11 = 0 then _
    else some (Dyadic.mk ((normal s _).toBits.toNat / 2 ^ 63 == 1)
      ((normal s _).toBits.toNat % 2 ^ 52 + 2 ^ 52)
      (((normal s _).toBits.toNat / 2 ^ 52 % 2 ^ 11 : Nat) - 1075))) = _
  rw [hexponent, if_neg (by omega), if_neg (by omega), hsign, hmantissa, hnegative,
    Nat.sub_add_cancel hlower, Int.toNat_of_nonneg (by omega), Int.add_sub_cancel]

/-- Arithmetic on a double begins with its parts. -/
theorem unpack_normal : (normal s h).toModel.unpack = .finite s m e h.pos := by
  have hexponent := toNat_storedExponent h
  have hmantissa := toNat_storedMantissa h
  obtain ⟨hlower, -, hleast, hmost⟩ := id h
  have hfinite : storedExponent e ≠ -1#_ := by
    intro hex
    have := congrArg BitVec.toNat hex
    change _ = 2047 at this
    omega
  have hleading : storedExponent e ≠ 0#_ := by
    intro hex
    have := congrArg BitVec.toNat hex
    change _ = 0 at this
    omega
  have hm : (1#1 ++ storedMantissa m).toNat = m := by
    rw [toNat_append, hmantissa]
    change 1 * 2 ^ 52 + (m - 2 ^ 52) = m
    omega
  have he : ((storedExponent e).toNat : Int) -
      (Format.binary64.exponentBias + Format.binary64.mantissaBitsWithoutImplicit : Int) = e := by
    rw [hexponent]
    change ((e + 1075).toNat : Int) - (1023 + 52) = e
    omega
  change UnpackedFloat.unpack Format.binary64
    (UnpackedFloat.pack Format.binary64 (.finite s m e h.pos)) = _
  rw [pack_normal s h, UnpackedFloat.unpack]
  simp only [UnpackedFloat.unpackExponent_packComponents,
    UnpackedFloat.unpackMantissa_packComponents, UnpackedFloat.unpackSign_packComponents,
    Sign.ofBitVec_toBitVec, if_neg hfinite, if_neg hleading, hm, he]

/-! ## Rounding what needs no rounding -/

include h in
theorem targetExponent_of_normal (j : Nat) :
    Format.binary64.targetExponent (totalExponent (m * 2 ^ j) (e - j)) = e := by
  have hlog : (m * 2 ^ j).log2 = 52 + j := by
    rw [log2_mul_two_pow h.pos, h.log2]
  have hleast := h.least
  unfold Format.targetExponent totalExponent
  rw [hlog]
  change max (((52 + j : Nat) : Int) + 1 + (e - j) - (53 : Nat)) (-1074) = e
  omega

/-- Moving zeros out of a mantissa leaves no remainder. -/
theorem shiftRight_exact (m j : Nat) :
    (⟨m * 2 ^ j, false, false⟩ : ExtendedMantissa) >>> j = ⟨m, false, false⟩ := by
  change j.repeat ExtendedMantissa.shiftRightOne _ = _
  induction j generalizing m with
  | zero => simp [Nat.repeat]
  | succ j ih =>
    rw [Nat.repeat, Nat.pow_succ, Nat.mul_comm (2 ^ j), ← Nat.mul_assoc, ih]
    simp [ExtendedMantissa.shiftRightOne]

include h in
theorem shiftToTargetExponent_exact (j : Nat) :
    UnpackedFloat.shiftToTargetExponent Format.binary64 (m * 2 ^ j) (e - j) .exact =
      (⟨m, false, false⟩, e) := by
  unfold UnpackedFloat.shiftToTargetExponent UnpackedFloat.shiftToExponent
  rw [targetExponent_of_normal h j]
  have hj : (e - (e - j)).toNat = j := by omega
  dsimp only
  rw [hj, Int.sub_add_cancel]
  exact congrArg (·, e) (shiftRight_exact m j)

theorem roundWithAccuracy_exact (j : Nat) :
    UnpackedFloat.roundWithAccuracy Format.binary64 s (m * 2 ^ j) (e - j) .exact =
      .finite s m e h.pos := by
  have hfirst := shiftToTargetExponent_exact h j
  have hsecond := shiftToTargetExponent_exact h 0
  rw [Nat.pow_zero, Nat.mul_one, Int.natCast_zero, Int.sub_zero] at hsecond
  have hrounded : (⟨m, false, false⟩ : ExtendedMantissa).roundedMantissa = m := rfl
  simp only [UnpackedFloat.roundWithAccuracy, hfirst, hrounded, hsecond]
  exact dif_neg (Nat.pos_iff_ne_zero.1 h.pos)

theorem neg_normal : (normal .positive h).neg = normal .negative h := by
  change Float.ofModel (.pack (normal .positive h).toModel.unpack.neg) = _
  rw [unpack_normal]
  rfl

theorem mul_one_normal :
    (normal .positive h).mul (Float.ofBits 0x3FF0000000000000) = normal .positive h := by
  have hone : (Float.ofBits 0x3FF0000000000000).toModel.unpack =
    .finite .positive (2 ^ 52) (-52) (by decide) := rfl
  change Float.ofModel (.pack (UnpackedFloat.mul Format.binary64
    (normal .positive h).toModel.unpack (Float.ofBits 0x3FF0000000000000).toModel.unpack)) = _
  rw [unpack_normal, hone]
  change Float.ofModel (.pack (UnpackedFloat.roundWithAccuracy Format.binary64 .positive
    (m * 2 ^ 52) (e - 52) .exact)) = _
  exact congrArg (fun f => Float.ofModel (.pack f)) (roundWithAccuracy_exact .positive h 52)

end

/-! ## Whole numbers -/

section

variable {n : Nat} (hpos : 0 < n) (h : n < 2 ^ 53)

include hpos h

theorem log2_le : n.log2 ≤ 52 := by
  have := (Nat.log2_lt (Nat.pos_iff_ne_zero.1 hpos)).2 h
  omega

/-- The bits of a whole number, moved up to the leading place. -/
theorem isNormal_scaled : IsNormal (n * 2 ^ (52 - n.log2)) (n.log2 - 52) := by
  have hlog := log2_le hpos h
  have hlower := Nat.log2_self_le (Nat.pos_iff_ne_zero.1 hpos)
  have hupper := Nat.lt_log2_self (n := n)
  refine ⟨?_, ?_, by omega, by omega⟩
  · calc 2 ^ 52 = 2 ^ n.log2 * 2 ^ (52 - n.log2) := by
          rw [← Nat.pow_add, Nat.add_sub_cancel' hlog]
      _ ≤ n * 2 ^ (52 - n.log2) := Nat.mul_le_mul_right _ hlower
  · calc n * 2 ^ (52 - n.log2) < 2 ^ (n.log2 + 1) * 2 ^ (52 - n.log2) :=
          Nat.mul_lt_mul_of_pos_right hupper (Nat.two_pow_pos _)
      _ = 2 ^ 53 := by
          rw [← Nat.pow_add, Nat.add_right_comm, Nat.add_sub_cancel' hlog]

theorem round_eq_finite (s : Sign) :
    UnpackedFloat.round Format.binary64 s n 0 =
      .finite s (n * 2 ^ (52 - n.log2)) (n.log2 - 52) (isNormal_scaled hpos h).pos := by
  have hlog := log2_le hpos h
  have htarget : Format.binary64.targetExponent (totalExponent n 0) = n.log2 - 52 := by
    unfold Format.targetExponent totalExponent
    change max ((n.log2 : Int) + 1 + 0 - (53 : Nat)) (-1074) = n.log2 - 52
    omega
  have hshift : (0 - ((n.log2 : Int) - 52)).toNat = 52 - n.log2 := by omega
  have hexponent : (0 : Int) - (52 - n.log2 : Nat) = n.log2 - 52 := by omega
  have hround := roundWithAccuracy_exact s (isNormal_scaled hpos h) 0
  rw [Nat.pow_zero, Nat.mul_one, Int.natCast_zero, Int.sub_zero] at hround
  simp only [UnpackedFloat.round, htarget, UnpackedFloat.decreaseExponent, hshift, hexponent,
    Nat.shiftLeft_eq]
  exact hround

/-- A double is made of a whole number by way of 64 bits, and multiplied by a power of ten, here
one. -/
theorem ofNat_eq_normal : Float.ofNat n = normal .positive (isNormal_scaled hpos h) := by
  have hword : n.toUInt64.toNat = n := by
    change n % 2 ^ 64 = n
    omega
  have hcompare : compare (n : Int) 0 = .gt := Int.compare_eq_gt.2 (Int.natCast_pos.2 hpos)
  have hfloat : n.toUInt64.toFloat = normal .positive (isNormal_scaled hpos h) := by
    change Float.ofModel (.pack (UnpackedFloat.normalize Format.binary64
      (n.toUInt64.toNat : Int) 0 .positive)) = _
    rw [hword, UnpackedFloat.normalize, hcompare]
    exact congrArg (fun f => Float.ofModel (.pack f)) (round_eq_finite hpos h .positive)
  have hone : Float.exactlyRepresentablePowersOfTen[0] = Float.ofBits 0x3FF0000000000000 := rfl
  change Float.ofScientific n false 0 = _
  rw [Float.ofScientific, dif_pos ⟨h, by decide⟩]
  change n.toUInt64.toFloat.mul Float.exactlyRepresentablePowersOfTen[0] = _
  rw [hone, hfloat, mul_one_normal]

theorem integral?_normal (s : Sign) :
    integral? (normal s (isNormal_scaled hpos h)) = some (s.apply n) := by
  have hsign (x : Nat) : (if s == .negative then -(x : Int) else x) = s.apply x := by
    cases s <;> rfl
  unfold integral?
  rw [ofFloat?_normal]
  rcases Nat.lt_or_eq_of_le (log2_le hpos h) with hlt | heq
  · have hexponent : (n.log2 : Int) - 52 = .negSucc (51 - n.log2) := by omega
    have hunit : 51 - n.log2 + 1 = 52 - n.log2 := by omega
    have hmod : n * 2 ^ (52 - n.log2) % Nat.pow 2 (51 - n.log2 + 1) = 0 := by
      rw [hunit]
      exact Nat.mul_mod_left _ _
    have hdiv : n * 2 ^ (52 - n.log2) / Nat.pow 2 (51 - n.log2 + 1) = n := by
      rw [hunit]
      exact Nat.mul_div_cancel _ (Nat.two_pow_pos _)
    simp only [Option.bind_eq_bind, Option.bind_some, hexponent, hmod, hdiv, if_true, hsign]
  · have hexponent : (n.log2 : Int) - 52 = .ofNat 0 := by
      rw [heq]
      rfl
    have hscaled : n * 2 ^ (52 - n.log2) * Nat.pow 2 0 = n := by
      rw [heq]
      exact (Nat.mul_one _).trans (Nat.mul_one n)
    simp only [Option.bind_eq_bind, Option.bind_some, hexponent, hscaled, hsign]

end

/-- Every whole number up to `2 ^ 53` is the double that is made of it. -/
theorem integral?_ofInt {i : Int} (h : i.natAbs ≤ 2 ^ 53) :
    integral? (Float.ofInt i) = some i := by
  cases i with
  | ofNat n =>
    change integral? (Float.ofNat n) = some (n : Int)
    change n ≤ 2 ^ 53 at h
    rcases Nat.lt_or_eq_of_le h with h | rfl
    · rcases Nat.eq_zero_or_pos n with rfl | hpos
      · decide +kernel
      · rw [ofNat_eq_normal hpos h, integral?_normal hpos h .positive]
        rfl
    · decide +kernel
  | negSucc n =>
    change integral? (Float.ofNat (n + 1)).neg = some (-((n + 1 : Nat) : Int))
    change n + 1 ≤ 2 ^ 53 at h
    rcases Nat.lt_or_eq_of_le h with h | h
    · have hpos : 0 < n + 1 := Nat.succ_pos n
      rw [ofNat_eq_normal hpos h, neg_normal, integral?_normal hpos h .negative]
      rfl
    · rw [h]
      decide +kernel

end TableQuery.Number
