import Mathlib
import TableQuery.Proofs.NearestDoubles
import TableQuery.Scalar.Order

/-!
# The order of doubles

Doubles are in the order of their signs, then of their exponents, and then of their mantissas, as
long as the mantissas have a leading bit wherever the exponent can be less. So each double but
not-a-number has a place in a lexicographic order. Making doubles of whole numbers keeps their
order.
-/

namespace TableQuery.Number

open Float.Model (UnpackedFloat)
open Float.Model.UnpackedFloat (Sign)

/-! ## Places -/

/-- A place in the order of doubles: the side of zero first, then the exponent, then the
mantissa. -/
abbrev Place : Type :=
  Int ×ₗ Int ×ₗ Int

/-- The place of a number with a sign: below zero, everything is the other way round. -/
def Place.of (s : Sign) (side exponent mantissa : Int) : Place :=
  toLex (s.apply side, toLex (s.apply exponent, s.apply mantissa))

/-- The place of an unpacked double; not-a-number has none. -/
def unpackedPlace? : UnpackedFloat → Option Place
  | .notANumber => none
  | .infinity s => some (.of s 2 0 0)
  | .zero s => some (.of s 0 0 0)
  | .finite s m e _ => some (.of s 1 e m)

def place? (x : Float) : Option Place :=
  unpackedPlace? x.toModel.unpack

theorem compare_natCast (a b : Nat) : compare (a : Int) b = compare a b := by
  rw [← cmp_eq_compare, ← cmp_eq_compare, Nat.strictMono_cast.cmp_map_eq]

theorem compare_neg (a b : Int) : compare (-a) (-b) = (compare a b).swap := by
  have hanti : StrictAnti fun i : Int => -i := fun _ _ => neg_lt_neg
  rw [Int.compare_swap, ← cmp_eq_compare, ← cmp_eq_compare]
  exact hanti.cmp_map_eq a b

theorem Place.compare_positive (e e' : Int) (m m' : Nat) :
    compare (Place.of .positive 1 e m) (Place.of .positive 1 e' m') =
      (compare e e').then (compare m m') := by
  change (compare e e').then (compare (m : Int) m') = _
  rw [compare_natCast]

theorem Place.compare_negative (e e' : Int) (m m' : Nat) :
    compare (Place.of .negative 1 e m) (Place.of .negative 1 e' m') =
      ((compare e e').then (compare m m')).swap := by
  change (compare (-e) (-e')).then (compare (-(m : Int)) (-m')) = _
  rw [compare_neg, compare_neg, compare_natCast, Ordering.swap_then]

/-- Doubles compare as their places. -/
theorem compare_unpacked (x y : UnpackedFloat) :
    x.compare y = (unpackedPlace? x).bind fun p => (unpackedPlace? y).map (compare p) := by
  cases x with
  | notANumber => rfl
  | infinity s => cases s <;> cases y with
    | notANumber => rfl
    | infinity t | zero t | finite t _ _ _ => cases t <;> rfl
  | zero s => cases s <;> cases y with
    | notANumber => rfl
    | infinity t | zero t | finite t _ _ _ => cases t <;> rfl
  | finite s m e _ => cases y with
    | notANumber => cases s <;> rfl
    | infinity t | zero t => cases s <;> cases t <;> rfl
    | finite t m' e' _ =>
      cases s <;> cases t
      · exact congrArg some (Place.compare_negative e e' m m').symm
      · rfl
      · rfl
      · exact congrArg some (Place.compare_positive e e' m m').symm

theorem lt_iff_compare (x y : Float) :
    x < y ↔ x.toModel.unpack.compare y.toModel.unpack = some .lt := by
  change decide ((x.toModel.unpack.compare y.toModel.unpack == some .lt) = true) = true ↔ _
  simp

theorem beq_iff_compare (x y : Float) :
    (x == y) = true ↔ x.toModel.unpack.compare y.toModel.unpack = some .eq := by
  change (x.toModel.unpack.compare y.toModel.unpack == some .eq) = true ↔ _
  simp

/-- The three tests of a comparison find the order of the places. -/
theorem compareFloats?_eq_compare (x y : Float) :
    Scalar.compareFloats? x y = (place? x).bind fun p => (place? y).map (compare p) := by
  unfold Scalar.compareFloats?
  simp only [lt_iff_compare, beq_iff_compare, compare_unpacked, place?]
  cases unpackedPlace? x.toModel.unpack with
  | none => cases unpackedPlace? y.toModel.unpack <;> rfl
  | some p =>
    cases unpackedPlace? y.toModel.unpack with
    | none => rfl
    | some q =>
      have hswap : compare q p = (compare p q).swap := Std.OrientedCmp.eq_swap
      simp only [Option.bind_some, Option.map_some, hswap]
      cases compare p q <;> rfl

/-! ## The order of whole numbers as doubles -/

/-- The place of the double nearest to a whole number. -/
def wholePlace : Int → Place
  | .ofNat 0 => .of .positive 0 0 0
  | .ofNat (n + 1) => .of .positive 1 (nearestExponent (n + 1)) (nearestMantissa (n + 1))
  | .negSucc n => .of .negative 1 (nearestExponent (n + 1)) (nearestMantissa (n + 1))

theorem place?_normal (s : Sign) {m : Nat} {e : Int} (h : IsNormal m e) :
    place? (normal s h) = some (.of s 1 e m) := by
  rw [place?, unpack_normal]
  rfl

theorem place?_ofInt {i : Int} (h : i.natAbs < 2 ^ 64) :
    place? (Float.ofInt i) = some (wholePlace i) := by
  have hlog {n : Nat} (hn : n + 1 < 2 ^ 64) : (n + 1).log2 ≤ 1022 := by
    have hlt : (n + 1).log2 < 64 := (Nat.log2_lt n.succ_ne_zero).2 hn
    omega
  match i with
  | .ofNat 0 => decide +kernel
  | .ofNat (n + 1) =>
    change place? (Float.ofNat (n + 1)) = _
    rw [ofNat_eq_nearest n.succ_pos (hlog h), place?_normal]
    rfl
  | .negSucc n =>
    change place? (Float.ofNat (n + 1)).neg = _
    rw [ofNat_eq_nearest n.succ_pos (hlog h), neg_normal, place?_normal]
    rfl

theorem log2_mono {n n' : Nat} (hpos : 0 < n) (h : n ≤ n') : n.log2 ≤ n'.log2 := by
  have hpos' := Nat.lt_of_lt_of_le hpos h
  have hself := Nat.log2_self_le (Nat.pos_iff_ne_zero.1 hpos)
  exact (Nat.le_log2 (Nat.pos_iff_ne_zero.1 hpos')).2 (hself.trans h)

/-- A greater number has a greater exponent, or the same one and a mantissa that is not less. The
lesser number may be rounded up to the exponent of the greater one, with the least mantissa. -/
theorem nearest_mono {n n' : Nat} (hpos : 0 < n) (h : n ≤ n') :
    toLex (nearestExponent n, (nearestMantissa n : Int)) ≤
      toLex (nearestExponent n', (nearestMantissa n' : Int)) := by
  have hupper := leading_le n
  have hupper' := leading_le n'
  have hlower' := le_leading (Nat.lt_of_lt_of_le hpos h)
  rw [Prod.Lex.toLex_le_toLex]
  dsimp only
  unfold nearestExponent nearestMantissa
  rcases Nat.lt_or_eq_of_le (log2_mono hpos h) with hlog | hlog
  · split <;> split <;> omega
  · have hleading : leading n ≤ leading n' := by
      rw [leading, leading, hlog]
      exact halfEven_mono _ (Nat.mul_le_mul_right _ h)
    split <;> split <;> omega

theorem Place.of_le_of_side {s s' : Sign} {a a' : Int} (h : s.apply a < s'.apply a')
    (e m e' m' : Int) : Place.of s a e m ≤ Place.of s' a' e' m' :=
  Prod.Lex.toLex_le_toLex.2 (.inl h)

theorem Place.of_positive_le {e m e' m' : Int} (h : toLex (e, m) ≤ toLex (e', m')) :
    Place.of .positive 1 e m ≤ Place.of .positive 1 e' m' :=
  Prod.Lex.toLex_le_toLex.2 (.inr ⟨rfl, h⟩)

theorem Place.of_negative_le {e m e' m' : Int} (h : toLex (e', m') ≤ toLex (e, m)) :
    Place.of .negative 1 e m ≤ Place.of .negative 1 e' m' := by
  refine Prod.Lex.toLex_le_toLex.2 (.inr ⟨rfl, Prod.Lex.toLex_le_toLex.2 ?_⟩)
  rw [Prod.Lex.toLex_le_toLex] at h
  change -e < -e' ∨ -e = -e' ∧ -m ≤ -m'
  omega

/-- Making doubles of whole numbers keeps their order, though it may make them equal. -/
theorem wholePlace_mono : Monotone wholePlace := by
  intro i j h
  match i, j with
  | .ofNat 0, .ofNat 0 => exact le_rfl
  | .ofNat 0, .ofNat (n + 1) => exact Place.of_le_of_side (by decide) _ _ _ _
  | .ofNat (n + 1), .ofNat 0 => exact absurd (Int.ofNat_le.1 h) (Nat.not_succ_le_zero n)
  | .ofNat (n + 1), .ofNat (n' + 1) =>
    exact Place.of_positive_le (nearest_mono n.succ_pos (Int.ofNat_le.1 h))
  | .negSucc n, .ofNat 0 => exact Place.of_le_of_side (by decide) _ _ _ _
  | .negSucc n, .ofNat (n' + 1) => exact Place.of_le_of_side (by decide) _ _ _ _
  | .ofNat n, .negSucc n' =>
    exact absurd (h.trans_lt (Int.negSucc_lt_zero n')) (Int.not_lt.2 (Int.natCast_nonneg n))
  | .negSucc n, .negSucc n' =>
    exact Place.of_negative_le (nearest_mono n'.succ_pos (by omega))

end TableQuery.Number
