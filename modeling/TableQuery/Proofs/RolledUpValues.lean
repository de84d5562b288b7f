import Mathlib.Data.List.Induction
import Mathlib.Data.List.Perm.Basic
import TableQuery.Proofs.Engines.Reductions

/-!
# Aggregates of aggregates

A sum of counts or of sums of groups of rows is the count or the sum of all rows, since integers
wrap around in any order; the least of the least values is the least of all, and so is the greatest.
Values that are missing leave these as they are, and so does a group in which all are.
-/

namespace TableQuery

namespace Scalar

/-- A whole number. -/
def whole? : Scalar → Option Int64
  | .int i => some i
  | _ => none

/-- A whole number that may be missing, as a value. -/
def ofWhole? (i : Option Int64) : Scalar :=
  i.elim .null .int

theorem ofWhole?_whole? {x : Scalar} (h : x.fits .int64 = true) : ofWhole? x.whole? = x := by
  cases x with
  | null => rfl
  | int i => rfl
  | _ => cases h

/-- The value that stays of two whole numbers, if the direction goes by an operation on them. -/
theorem farther_ofWhole? {direction : Ordering} {op : Int64 → Int64 → Int64}
    (hop : ∀ a b, (if compare b.toInt a.toInt == direction then b else a) = op a b)
    (a b : Option Int64) :
    farther direction (ofWhole? a) (ofWhole? b) = ofWhole? (Option.merge op a b) := by
  cases a with
  | none => cases b <;> rfl
  | some a =>
    cases b with
    | none => rfl
    | some b =>
      simp only [ofWhole?, Option.elim_some, Option.merge_some_some, ← hop]
      simp only [farther, isNull, Bool.false_eq_true, if_false, cell, Cell.ofScalar, Cell.order]
      by_cases h : (compare b.toInt a.toInt == direction) = true <;> simp [h]

end Scalar

theorem max_eq_if (a b : Int64) : Max.max a b = if a.toInt ≤ b.toInt then b else a := by
  change (if a ≤ b then b else a) = _
  simp only [Int64.le_iff_toInt_le]

instance commutative_max : Std.Commutative (Max.max : Int64 → Int64 → Int64) where
  comm a b := by
    rw [max_eq_if, max_eq_if]
    split <;> split <;> refine Int64.toInt_inj.1 ?_ <;> omega

instance associative_max : Std.Associative (Max.max : Int64 → Int64 → Int64) where
  assoc a b c := by
    simp only [max_eq_if]
    split_ifs <;> first | rfl | omega

/-- The lesser one of two whole numbers stays in the direction of the lesser. -/
theorem lesser_eq_min (a b : Int64) :
    (if compare b.toInt a.toInt == .lt then b else a) = Min.min a b := by
  rw [Std.min_eq_if]
  simp only [Int64.le_iff_toInt_le, beq_iff_eq, Int.compare_eq_lt]
  split <;> split <;> first | rfl | omega

/-- The greater one of two whole numbers stays in the direction of the greater. -/
theorem greater_eq_max (a b : Int64) :
    (if compare b.toInt a.toInt == .gt then b else a) = Max.max a b := by
  rw [max_eq_if]
  simp only [beq_iff_eq, Int.compare_eq_gt]
  split <;> split <;> refine Int64.toInt_inj.1 ?_ <;> omega

namespace Aggregate

/-- An aggregate rolls up values of groups of rows if it makes them the value of all their rows, in
any order. -/
def RollsUp (a : Aggregate) (value : List Nat → Scalar) : Prop :=
  ∀ (groups : List (List Nat)) (rows : List Nat), groups.flatten.Perm rows →
    a.reduce (groups.map value) = .ok (value rows)

/-- Folding the folds of groups of elements is folding all of them, in any order. -/
theorem foldl_flatten {μ : Type} {op : μ → μ → μ} {e : μ} [Std.Associative op] [Std.Commutative op]
    [Std.LawfulIdentity op e] {groups : List (List μ)} {marks : List μ}
    (h : groups.flatten.Perm marks) :
    (groups.map fun g => g.foldl op e).foldl op e = marks.foldl op e := by
  rw [← h.foldl_op_eq, List.foldl_flatten, List.foldl_map]
  congr 1
  funext x g
  have hassoc : g.foldl op (op x e) = op x (g.foldl op e) := List.foldl_assoc
  have hid : op x e = x := Std.LawfulRightIdentity.right_id x
  rw [← hassoc, hid]

/-- An aggregate that folds marks rolls up values that are folds of the marks of the rows. -/
theorem RollsUp.of_foldl {a : Aggregate} {μ : Type} {op : μ → μ → μ} {e : μ} [Std.Associative op]
    [Std.Commutative op] [Std.LawfulIdentity op e] {shown : μ → Scalar} {mark : Nat → μ}
    {value : List Nat → Scalar}
    (ha : ∀ marks : List μ, a.reduce (marks.map shown) = .ok (shown (marks.foldl op e)))
    (hvalue : ∀ rows, value rows = shown ((rows.map mark).foldl op e)) : a.RollsUp value := by
  intro groups rows h
  have hvalues : groups.map value =
      ((groups.map (List.map mark)).map fun g => g.foldl op e).map shown := by
    simp [hvalue, Function.comp_def]
  have hmarks : (groups.map (List.map mark)).flatten.Perm (rows.map mark) := by
    rw [← List.map_flatten]
    exact h.map mark
  rw [hvalues, ha, foldl_flatten hmarks, hvalue]

variable {xs : List Scalar}

theorem sumOf_of_fits (h : ∀ x ∈ xs, x.fits .int64 = true) :
    sumOf xs = .ok (.int ((xs.map fun x => x.whole?.getD 0).foldl (· + ·) 0)) := by
  suffices go : ∀ s : Int64, xs.foldlM RunningSum.add ⟨s, none⟩ =
      .ok ⟨(xs.map fun x => x.whole?.getD 0).foldl (· + ·) s, none⟩ by
    rw [sumOf, go 0]
    rfl
  induction xs with
  | nil => exact fun s => rfl
  | cons x xs ih =>
    intro s
    obtain ⟨hx, hxs⟩ := List.forall_mem_cons.1 h
    rw [List.foldlM_cons, List.map_cons, List.foldl_cons, ← ih hxs]
    cases x with
    | null => simp [RunningSum.add, Scalar.whole?]
    | int i => rfl
    | _ => cases hx

/-- Sums roll up sums of whole numbers. -/
theorem rollsUp_of_sum {value : List Nat → Scalar} (mark : Nat → Int64)
    (h : ∀ rows, value rows = .int ((rows.map mark).foldl (· + ·) 0)) : sum.RollsUp value := by
  have hfolds (marks : List Int64) :
      sum.reduce (marks.map Scalar.int) = .ok (.int (marks.foldl (· + ·) 0)) := by
    rw [reduce, sumOf_of_fits (List.forall_mem_map.2 fun i _ => rfl), List.map_map]
    congr 4
    exact List.map_id _
  exact .of_foldl hfolds h

theorem extremeOf_ofWhole? {direction : Ordering} {op : Int64 → Int64 → Int64}
    (hop : ∀ a b, (if compare b.toInt a.toInt == direction then b else a) = op a b)
    (marks : List (Option Int64)) : extremeOf direction (marks.map Scalar.ofWhole?) =
      .ok (Scalar.ofWhole? (marks.foldl (Option.merge op) none)) := by
  have hfits : ∀ x ∈ marks.map Scalar.ofWhole?, x.fits .int64 = true :=
    List.forall_mem_map.2 fun i _ => by cases i <;> rfl
  have hfold : marks.foldl (fun x y => Scalar.farther direction x (Scalar.ofWhole? y))
      (Scalar.ofWhole? none) = Scalar.ofWhole? (marks.foldl (Option.merge op) none) :=
    List.foldl_hom Scalar.ofWhole? (Scalar.farther_ofWhole? hop)
  rw [extremeOf_of_fits direction hfits, List.foldl_map, ← hfold]
  rfl

/-- Extremes roll up extremes of whole numbers. -/
theorem rollsUp_of_extremeOf {a : Aggregate} {direction : Ordering} {op : Int64 → Int64 → Int64}
    [Std.Associative op] [Std.Commutative op] (ha : ∀ xs, a.reduce xs = extremeOf direction xs)
    (hop : ∀ a b, (if compare b.toInt a.toInt == direction then b else a) = op a b)
    {value : List Nat → Scalar} (mark : Nat → Option Int64)
    (h : ∀ rows, value rows = .ofWhole? ((rows.map mark).foldl (Option.merge op) none)) :
    a.RollsUp value :=
  .of_foldl (fun marks => (ha _).trans (extremeOf_ofWhole? hop marks)) h

end Aggregate

namespace Column

/-- The value of an aggregate of a column for a group of rows. -/
def reduced (a : Aggregate) (c : Column) (rows : List Nat) : Scalar :=
  (a.reduce (rows.map c.value)).toOption.getD .null

end Column

namespace Aggregate

theorem rollsUp_rowCount : sum.RollsUp fun rows => .int (.ofNat rows.length) := by
  refine rollsUp_of_sum (fun _ => 1) fun rows => congrArg Scalar.int ?_
  induction rows using List.reverseRecOn with
  | nil => rfl
  | append_singleton rows row ih =>
    simp only [List.map_append, List.length_append, List.foldl_append, ← ih]
    simp

variable {c : Column}

theorem rollsUp_count : sum.RollsUp (c.reduced .count) := by
  refine rollsUp_of_sum (fun row => if (c.value row).isNull then 0 else 1) fun rows =>
    congrArg Scalar.int ?_
  induction rows using List.reverseRecOn with
  | nil => rfl
  | append_singleton rows row ih =>
    simp only [List.map_append, List.filter_append, List.length_append, List.foldl_append, ← ih]
    cases h : (c.value row).isNull <;> simp [h]

variable (hc : c.IsBasic) (htype : c.type = .int64)

include hc htype

theorem fits_values (rows : List Nat) : ∀ x ∈ rows.map c.value, x.fits .int64 = true :=
  List.forall_mem_map.2 fun row _ => htype ▸ hc.fits_value row

theorem rollsUp_sum : sum.RollsUp (c.reduced .sum) := by
  refine rollsUp_of_sum (fun row => (c.value row).whole?.getD 0) fun rows => ?_
  rw [Column.reduced, reduce, sumOf_of_fits (fits_values hc htype rows), List.map_map]
  rfl

theorem reduced_extreme {a : Aggregate} {direction : Ordering} {op : Int64 → Int64 → Int64}
    (ha : ∀ xs, a.reduce xs = extremeOf direction xs)
    (hop : ∀ a b, (if compare b.toInt a.toInt == direction then b else a) = op a b)
    (rows : List Nat) : c.reduced a rows =
      .ofWhole? ((rows.map fun row => (c.value row).whole?).foldl (Option.merge op) none) := by
  have hvalues : rows.map c.value =
      (rows.map fun row => (c.value row).whole?).map Scalar.ofWhole? := by
    rw [List.map_map]
    refine List.map_congr_left fun row _ => ?_
    exact (Scalar.ofWhole?_whole? (htype ▸ hc.fits_value row)).symm
  rw [Column.reduced, ha, hvalues, extremeOf_ofWhole? hop]
  rfl

theorem rollsUp_min : min.RollsUp (c.reduced .min) :=
  rollsUp_of_extremeOf (fun _ => rfl) lesser_eq_min _
    (reduced_extreme hc htype (fun _ => rfl) lesser_eq_min)

theorem rollsUp_max : max.RollsUp (c.reduced .max) :=
  rollsUp_of_extremeOf (fun _ => rfl) greater_eq_max _
    (reduced_extreme hc htype (fun _ => rfl) greater_eq_max)

end Aggregate

end TableQuery
