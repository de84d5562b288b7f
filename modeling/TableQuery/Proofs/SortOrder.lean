import Mathlib
import TableQuery.Proofs.DoubleOrder

/-!
# The order of a sort

A sort compares integers as they are and other numbers as doubles, and it goes by the names of the
kinds where sizes tell nothing. Each way of comparing is an order of its own, and the three do not
always fit together: one double can be level with two integers, and not-a-number is compared by kind
with numbers that are compared by size with each other.
-/

namespace TableQuery.Scalar

open Number (Place place?_ofInt wholePlace wholePlace_mono compareFloats?_eq_compare)

/-! ## Comparing by size -/

/-- The place of a number, truth values included; not-a-number has none. -/
def place? (a : Scalar) : Option Place :=
  a.toFloat?.bind Number.place?

theorem place?_int (i : Int64) : place? (.int i) = some (wholePlace i.toInt) := by
  have hlower := i.le_toInt
  have hupper := i.toInt_lt
  exact place?_ofInt (by omega)

theorem place?_bool (t : Bool) : place? (.bool t) = some (wholePlace (if t then 1 else 0)) := by
  cases t <;> decide +kernel

variable {a b c : Scalar}

theorem isNaN_iff {x : Float} : x.isNaN ↔ place? (.float x) = none := by
  change x.toModel.unpack.isNaN ↔ Number.unpackedPlace? x.toModel.unpack = none
  cases x.toModel.unpack <;> simp [Float.Model.UnpackedFloat.isNaN, Number.unpackedPlace?]

/-- Values of other kinds than two integers or two texts compare by their places. -/
theorem compare?_eq_compare (hint : ¬(a.kind = .int ∧ b.kind = .int))
    (hstr : ¬(a.kind = .str ∧ b.kind = .str)) :
    compare? a b = (place? a).bind fun p => (place? b).map (compare p) := by
  cases a with
  | null => cases b <;> rfl
  | str s => cases b with
    | str t => exact absurd ⟨rfl, rfl⟩ hstr
    | _ => rfl
  | bool s => cases b with
    | null | str t => exact (Option.bind_fun_none _).symm
    | bool t => cases s <;> cases t <;> decide +kernel
    | int j | float y => exact compareFloats?_eq_compare _ _
  | int i => cases b with
    | null | str t => exact (Option.bind_fun_none _).symm
    | int j => exact absurd ⟨rfl, rfl⟩ hint
    | bool t | float y => exact compareFloats?_eq_compare _ _
  | float x => cases b with
    | null | str t => exact (Option.bind_fun_none _).symm
    | bool t | int j | float y => exact compareFloats?_eq_compare _ _

theorem compare?_swap (a b : Scalar) : compare? b a = (compare? a b).map Ordering.swap := by
  by_cases hint : a.kind = .int ∧ b.kind = .int
  · match a, b, hint with
    | .int i, .int j, _ => exact congrArg some Std.OrientedCmp.eq_swap
  by_cases hstr : a.kind = .str ∧ b.kind = .str
  · match a, b, hstr with
    | .str s, .str t, _ => exact congrArg some Std.OrientedCmp.eq_swap
  rw [compare?_eq_compare hint hstr,
    compare?_eq_compare (fun h => hint h.symm) fun h => hstr h.symm]
  cases place? a with
  | none => exact Option.bind_fun_none _
  | some p =>
    cases place? b with
    | none => rfl
    | some q => exact congrArg some Std.OrientedCmp.eq_swap

theorem sortCompare_of_compare? {o : Ordering} (h : compare? a b = some o) :
    sortCompare a b = o := by
  cases a with
  | null => cases b <;> simp [compare?, toFloat?] at h
  | _ =>
    cases b with
    | null => simp [compare?, toFloat?] at h
    | _ =>
      unfold sortCompare
      rw [h]
      rfl

theorem le_of_sortCompare_int {i j : Int64} (h : sortCompare (.int i) (.int j) ≠ .gt) : i ≤ j :=
  Int64.not_lt.1 fun hlt => h (Std.compare_eq_gt.2 hlt)

section

variable {p q : Place} (ha : place? a = some p) (hb : place? b = some q)

include ha hb

theorem compare?_places (hint : ¬(a.kind = .int ∧ b.kind = .int)) :
    compare? a b = some (compare p q) := by
  have hstr : ¬(a.kind = .str ∧ b.kind = .str) := by
    intro h
    cases a <;> first | cases ha | cases h.1
  rw [compare?_eq_compare hint hstr, ha, hb]
  rfl

/-- Values with places compare by size. -/
theorem compare?_eq_sortCompare : compare? a b = some (sortCompare a b) := by
  by_cases hint : a.kind = .int ∧ b.kind = .int
  · match a, b, hint with
    | .int i, .int j, _ => rfl
  · have h := compare?_places ha hb hint
    rw [sortCompare_of_compare? h, h]

/-- What is not after a value in a sort has no greater place. -/
theorem place_le (h : sortCompare a b ≠ .gt) : p ≤ q := by
  by_cases hint : a.kind = .int ∧ b.kind = .int
  · match a, b, hint with
    | .int i, .int j, _ =>
      have hle : i ≤ j := le_of_sortCompare_int h
      rw [place?_int] at ha hb
      cases ha
      cases hb
      exact wholePlace_mono (Int64.le_iff_toInt_le.1 hle)
  · rw [sortCompare_of_compare? (compare?_places ha hb hint)] at h
    exact compare_le_iff_le.1 h

end

/-! ## Comparing by kind -/

/-- Asked the other way round, a sort answers the other way round. -/
theorem sortCompare_swap (a b : Scalar) : sortCompare b a = (sortCompare a b).swap := by
  have hnames : compare b.kind.name a.kind.name = (compare a.kind.name b.kind.name).swap :=
    Std.OrientedCmp.eq_swap
  unfold sortCompare
  rw [compare?_swap a b, hnames]
  cases a.isNull <;> cases b.isNull <;> try rfl
  cases compare? a b <;> rfl

/-- Numbers come before texts, and texts before null. -/
def rank : Scalar → Nat
  | .bool _ | .int _ | .float _ => 0
  | .str _ => 1
  | .null => 2

theorem sortCompare_of_rank_lt (h : a.rank < b.rank) : sortCompare a b = .lt := by
  cases b with
  | bool | int | float => exact absurd h (Nat.not_lt_zero _)
  | str t =>
    cases a with
    | bool | int | float =>
      simp only [sortCompare, isNull, compare?, toFloat?, kind, Kind.name, Option.getD_none]
      decide
    | null | str => exact absurd h (by simp [rank])
  | null =>
    cases a with
    | null => exact absurd h (Nat.lt_irrefl _)
    | _ => rfl

/-- A sort keeps numbers, texts and null apart. -/
theorem rank_le (h : sortCompare a b ≠ .gt) : a.rank ≤ b.rank := by
  by_contra hlt
  have hswap := sortCompare_swap b a
  rw [sortCompare_of_rank_lt (Nat.not_le.1 hlt)] at hswap
  exact h hswap

theorem place_or_nan (h : a.rank = 0) :
    (∃ p, place? a = some p) ∨ ∃ x : Float, a = .float x ∧ x.isNaN := by
  cases a with
  | null | str => cases h
  | bool t => exact .inl ⟨_, place?_bool t⟩
  | int i => exact .inl ⟨_, place?_int i⟩
  | float x =>
    cases hx : place? (.float x) with
    | none => exact .inr ⟨x, rfl, isNaN_iff.2 hx⟩
    | some p => exact .inl ⟨p, rfl⟩

/-- Where the sizes tell nothing, the names of the kinds do. -/
theorem sortCompare_nan_left {x : Float} (hx : x.isNaN) (b : Scalar) :
    sortCompare (.float x) b = .gt ↔ b.kind = .bool := by
  have hnone : compare? (.float x) b = none := by
    rw [compare?_eq_compare (by simp [kind]) (by simp [kind]), isNaN_iff.1 hx]
    rfl
  unfold sortCompare
  rw [hnone]
  cases b <;> simp only [isNull, kind, Kind.name, Option.getD_none] <;> decide

theorem sortCompare_nan_ne_gt {x : Float} (hx : x.isNaN) (hb : b.kind = .float ∨ b.kind = .int) :
    sortCompare (.float x) b ≠ .gt := by
  rw [Ne, sortCompare_nan_left hx]
  rcases hb with hb | hb <;> rw [hb] <;> decide

theorem sortCompare_nan_right {x : Float} (hx : x.isNaN) (a : Scalar) :
    sortCompare a (.float x) ≠ .gt ↔ a.kind = .bool ∨ a.kind = .float := by
  have hnone : compare? a (.float x) = none := by
    rw [compare?_eq_compare (by simp [kind]) (by simp [kind]), isNaN_iff.1 hx]
    exact Option.bind_fun_none _
  unfold sortCompare
  rw [hnone]
  cases a <;> simp only [isNull, kind, Kind.name, Option.getD_none] <;> decide

/-! ## What is out of order -/

/-- That a value is at most another by size. -/
def AtMost (a b : Scalar) : Prop :=
  compare? a b = some .lt ∨ compare? a b = some .eq

/-- Three values of which a sort puts the first before or level with the second, the second before
or level with the third, and the first after the third. -/
inductive Disorder : Scalar → Scalar → Scalar → Prop
  /-- A double can be level with two integers that are made the same double. -/
  | level {i j : Int64} {x : Float} (h : j < i) (hi : compare? (.int i) (.float x) = some .eq)
      (hj : compare? (.float x) (.int j) = some .eq) : Disorder (.int i) (.float x) (.int j)
  /-- Not-a-number goes by the names of the kinds, the others by size. -/
  | nanFirst {x : Float} {b : Scalar} {t : Bool} (hx : x.isNaN)
      (hb : b.kind = .float ∨ b.kind = .int) (h : AtMost b (.bool t)) :
      Disorder (.float x) b (.bool t)
  | nanMiddle {a c : Scalar} {x : Float} (hx : x.isNaN) (ha : a.kind = .bool ∨ a.kind = .float)
      (hc : c.kind = .float ∨ c.kind = .int) (h : compare? a c = some .gt) :
      Disorder a (.float x) c
  | nanLast {i : Int64} {b : Scalar} {x : Float} (hx : x.isNaN)
      (hb : b.kind = .bool ∨ b.kind = .float) (h : AtMost (.int i) b) :
      Disorder (.int i) b (.float x)

theorem AtMost.sortCompare_ne_gt (h : AtMost a b) : sortCompare a b ≠ .gt := by
  rcases h with h | h <;> rw [sortCompare_of_compare? h] <;> decide

theorem Disorder.out_of_order (h : Disorder a b c) :
    sortCompare a b ≠ .gt ∧ sortCompare b c ≠ .gt ∧ sortCompare a c = .gt := by
  cases h with
  | @level i j _ h hi hj =>
    have hgt : compare i j = .gt := Std.compare_eq_gt.2 h
    exact ⟨AtMost.sortCompare_ne_gt (.inr hi), AtMost.sortCompare_ne_gt (.inr hj), hgt⟩
  | nanFirst hx hb h =>
    exact ⟨sortCompare_nan_ne_gt hx hb, h.sortCompare_ne_gt, (sortCompare_nan_left hx _).2 rfl⟩
  | nanMiddle hx ha hc h =>
    exact ⟨(sortCompare_nan_right hx _).2 ha, sortCompare_nan_ne_gt hx hc,
      sortCompare_of_compare? h⟩
  | nanLast hx hb h =>
    refine ⟨h.sortCompare_ne_gt, (sortCompare_nan_right hx _).2 hb, ?_⟩
    by_contra hgt
    rcases (sortCompare_nan_right hx _).1 hgt with h | h <;> cases h

/-- Zero and one are the only whole numbers with their doubles. -/
theorem eq_of_wholePlace_eq {i : Int} {t : Bool}
    (h : wholePlace i = wholePlace (if t then 1 else 0)) : i = if t then 1 else 0 := by
  have hbelow : wholePlace (-1) < wholePlace 0 := by decide +kernel
  have hbetween : wholePlace 0 < wholePlace 1 := by decide +kernel
  have habove : wholePlace 1 < wholePlace 2 := by decide +kernel
  have hnext {k l : Int} (hkl : wholePlace k < wholePlace l) : k < l := by
    by_contra hlk
    exact absurd (wholePlace_mono (Int.not_lt.1 hlk)) (not_le.2 hkl)
  cases t with
  | false =>
    have hlower := hnext (h ▸ hbelow)
    have hupper := hnext (h ▸ hbetween)
    simp only [Bool.false_eq_true, if_false]
    omega
  | true =>
    have hlower := hnext (h ▸ hbetween)
    have hupper := hnext (h ▸ habove)
    simp only [if_true]
    omega

theorem kind_of_ne_bool (hb : b.rank = 0) (h : b.kind ≠ .bool) :
    b.kind = .float ∨ b.kind = .int := by
  cases b with
  | null | str => cases hb
  | bool => exact absurd rfl h
  | int => exact .inr rfl
  | float => exact .inl rfl

theorem atMost_of_sortCompare {p q : Place} (ha : place? a = some p) (hb : place? b = some q)
    (h : sortCompare a b ≠ .gt) : AtMost a b := by
  have hsize := compare?_eq_sortCompare ha hb
  cases ho : sortCompare a b with
  | lt => exact .inl (ho ▸ hsize)
  | eq => exact .inr (ho ▸ hsize)
  | gt => exact absurd ho h

/-- Two integers that are out of order although a number is between them are level with it. -/
theorem disorder_of_integers {i j : Int64} {q : Place} (hq : place? b = some q)
    (hib : sortCompare (.int i) b ≠ .gt) (hbj : sortCompare b (.int j) ≠ .gt) (h : j < i) :
    Disorder (.int i) b (.int j) := by
  have hle : wholePlace i.toInt ≤ q := place_le (place?_int i) hq hib
  have hle' : q ≤ wholePlace j.toInt := place_le hq (place?_int j) hbj
  have hmono : wholePlace j.toInt ≤ wholePlace i.toInt :=
    wholePlace_mono (Int64.lt_iff_toInt_lt.1 h).le
  have hi : wholePlace i.toInt = q := le_antisymm hle (hle'.trans hmono)
  have hj : q = wholePlace j.toInt := le_antisymm hle' (hmono.trans hle)
  cases b with
  | null | str => cases hq
  | bool t =>
    rw [place?_bool] at hq
    cases hq
    have hit := eq_of_wholePlace_eq hi
    have hjt := eq_of_wholePlace_eq hj.symm
    exact absurd (Int64.lt_iff_toInt_lt.1 h) (by omega)
  | int k =>
    have hij : i ≤ j := Int64.le_trans (le_of_sortCompare_int hib) (le_of_sortCompare_int hbj)
    exact absurd h (Int64.not_lt.2 hij)
  | float x =>
    refine .level h ?_ ?_
    · rw [compare?_places (place?_int i) hq (by simp [kind]), compare_eq_iff_eq.2 hi]
    · rw [compare?_places hq (place?_int j) (by simp [kind]), compare_eq_iff_eq.2 hj]

section

variable (hab : sortCompare a b ≠ .gt) (hbc : sortCompare b c ≠ .gt) (hac : sortCompare a c = .gt)

include hab hbc hac

theorem disorder_of_places {p q r : Place} (hp : place? a = some p) (hq : place? b = some q)
    (hr : place? c = some r) : Disorder a b c := by
  by_cases hint : a.kind = .int ∧ c.kind = .int
  · match a, c, hint with
    | .int i, .int j, _ => exact disorder_of_integers hq hab hbc (Std.compare_eq_gt.1 hac)
  · have hle : p ≤ r := (place_le hp hq hab).trans (place_le hq hr hbc)
    rw [sortCompare_of_compare? (compare?_places hp hr hint)] at hac
    exact absurd hac (compare_le_iff_le.2 hle)

theorem disorder_of_nan_first {x : Float} (ha : a = .float x) (hx : x.isNaN) (hb : b.rank = 0) :
    Disorder a b c := by
  subst ha
  have hkind := (sortCompare_nan_left hx c).1 hac
  rcases place_or_nan hb with ⟨q, hq⟩ | ⟨y, rfl, hy⟩
  · cases c with
    | bool t =>
      refine .nanFirst hx (kind_of_ne_bool hb ?_) (atMost_of_sortCompare hq (place?_bool t) hbc)
      exact fun h => hab ((sortCompare_nan_left hx b).2 h)
    | null | int | float | str => cases hkind
  · exact absurd ((sortCompare_nan_left hy c).2 hkind) hbc

theorem disorder_of_nan_middle {x : Float} {p : Place} (hp : place? a = some p) (hb : b = .float x)
    (hx : x.isNaN) (hc : c.rank = 0) : Disorder a b c := by
  subst hb
  have hkind := (sortCompare_nan_right hx a).1 hab
  rcases place_or_nan hc with ⟨r, hr⟩ | ⟨z, rfl, hz⟩
  · refine .nanMiddle hx hkind (kind_of_ne_bool hc ?_) ?_
    · exact fun h => hbc ((sortCompare_nan_left hx c).2 h)
    · rw [compare?_eq_sortCompare hp hr, hac]
  · exact absurd hac ((sortCompare_nan_right hz a).2 hkind)

theorem disorder_of_nan_last {x : Float} {p q : Place} (hp : place? a = some p)
    (hq : place? b = some q) (hc : c = .float x) (hx : x.isNaN) : Disorder a b c := by
  subst hc
  have hkind := (sortCompare_nan_right hx b).1 hbc
  cases a with
  | null | str => cases hp
  | int i => exact .nanLast hx hkind (atMost_of_sortCompare hp hq hab)
  | bool t => exact absurd hac ((sortCompare_nan_right hx _).2 (.inl rfl))
  | float y => exact absurd hac ((sortCompare_nan_right hx _).2 (.inr rfl))

/-- Numbers that a sort puts out of order, by where not-a-number stands among them. -/
theorem disorder_of_numbers (ha : a.rank = 0) (hb : b.rank = 0) (hc : c.rank = 0) :
    Disorder a b c := by
  rcases place_or_nan ha with ⟨p, hp⟩ | ⟨x, ha, hx⟩
  · rcases place_or_nan hb with ⟨q, hq⟩ | ⟨y, hb, hy⟩
    · rcases place_or_nan hc with ⟨r, hr⟩ | ⟨z, hc, hz⟩
      · exact disorder_of_places hab hbc hac hp hq hr
      · exact disorder_of_nan_last hab hbc hac hp hq hc hz
    · exact disorder_of_nan_middle hab hbc hac hp hb hy hc
  · exact disorder_of_nan_first hab hbc hac ha hx hb

/-- What a sort puts out of order is a disorder. -/
theorem disorder_of_sortCompare : Disorder a b c := by
  have hca : sortCompare c a ≠ .gt := by
    rw [sortCompare_swap a c, hac]
    decide
  have hba : b.rank = a.rank := le_antisymm ((rank_le hbc).trans (rank_le hca)) (rank_le hab)
  have hcb : c.rank = b.rank := le_antisymm ((rank_le hca).trans (rank_le hab)) (rank_le hbc)
  cases a with
  | bool | int | float => exact disorder_of_numbers hab hbc hac rfl hba (hcb.trans hba)
  | str s =>
    cases b with
    | str t =>
      cases c with
      | str u =>
        have hst : s ≤ t := compare_le_iff_le.1 hab
        have htu : t ≤ u := compare_le_iff_le.1 hbc
        exact absurd hac (compare_le_iff_le.2 (hst.trans htu))
      | _ => cases hcb
    | _ => cases hba
  | null =>
    cases c with
    | null => cases hac
    | _ => cases hcb.trans hba

end

/-- Asked the other way round, a sort answers the other way round. Its comparison is transitive but
for what a double level with two integers or not-a-number puts out of order. -/
theorem sortCompare_transitive_iff (a b c : Scalar) :
    sortCompare b a = (sortCompare a b).swap ∧
      ((sortCompare a b ≠ .gt → sortCompare b c ≠ .gt → sortCompare a c ≠ .gt) ↔
        ¬Disorder a b c) := by
  refine ⟨sortCompare_swap a b, fun htrans hdisorder => ?_, fun hdisorder hab hbc hac => ?_⟩
  · obtain ⟨hab, hbc, hac⟩ := hdisorder.out_of_order
    exact htrans hab hbc hac
  · exact hdisorder (disorder_of_sortCompare hab hbc hac)

/-- Not-a-number is level with two and with one. -/
theorem not_a_number_levels_doubles :
    ¬∀ a b c : Scalar, sortCompare b a = (sortCompare a b).swap ∧
      (sortCompare a b ≠ .gt → sortCompare b c ≠ .gt → sortCompare a c ≠ .gt) := by
  intro hpreorder
  have htrans := (hpreorder (.float 2.0) (.float (0.0 / 0.0)) (.float 1.0)).2
  exact htrans (by decide +kernel) (by decide +kernel) (by decide +kernel)

/-- Two neighbours above `2 ^ 53` are made the same double. -/
example :
    sortCompare (.int 9007199254740993) (.float 9007199254740992.0) = .eq ∧
      sortCompare (.float 9007199254740992.0) (.int 9007199254740992) = .eq ∧
      sortCompare (.int 9007199254740993) (.int 9007199254740992) = .gt := by
  decide +kernel

end TableQuery.Scalar
