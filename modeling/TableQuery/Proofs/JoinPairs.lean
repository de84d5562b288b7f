import Mathlib.Data.List.Basic
import TableQuery.Table.Join

/-!
# The pairs of rows of a join

An inner join has the pairs of rows that match, by their left rows and then by their right rows. A
left join also has each left row without partner, in its place. A right join goes by the right rows
first and has each of them without partner: it is a left join with the tables exchanged.
-/

namespace TableQuery

namespace JoinMode

/-- Whether a pair of rows stands before another one: by the left rows first, or in a right join by
the right rows. -/
def Before (mode : JoinMode) (a b : Option Nat × Option Nat) : Prop :=
  match mode with
  | .right => a.2 < b.2 ∨ a.2 = b.2 ∧ a.1 < b.1
  | _ => a.1 < b.1 ∨ a.1 = b.1 ∧ a.2 < b.2

/-- A list has the pairs of rows that a join makes of what matches, in their order. -/
structure Lists (mode : JoinMode) (matched : Nat → Nat → Prop) (n m : Nat)
    (rows : List (Option Nat × Option Nat)) : Prop where
  pair : ∀ i j, (some i, some j) ∈ rows ↔ i < n ∧ j < m ∧ matched i j
  leftAlone : ∀ i, (some i, none) ∈ rows ↔ mode = .left ∧ i < n ∧ ∀ j < m, ¬matched i j
  rightAlone : ∀ j, (none, some j) ∈ rows ↔ mode = .right ∧ j < m ∧ ∀ i < n, ¬matched i j
  noneAlone : (none, none) ∉ rows
  order : rows.Pairwise mode.Before

variable {related : Nat → Nat → Bool} {n m : Nat}

theorem mem_partners {i j : Nat} : j ∈ partners related m i ↔ j < m ∧ related i j = true := by
  simp [partners]

theorem partners_eq_nil {i : Nat} : partners related m i = [] ↔ ∀ j < m, ¬related i j = true := by
  simp [partners, List.filter_eq_nil_iff]

/-- The pairs of a left row in a left join. -/
def aloneOrPaired (related : Nat → Nat → Bool) (m i : Nat) : List (Option Nat × Option Nat) :=
  match partners related m i with
  | [] => [(some i, none)]
  | js => js.map fun j => (some i, some j)

theorem pairs_left : pairs .left related n m = (List.range n).flatMap (aloneOrPaired related m) :=
  rfl

theorem mem_aloneOrPaired {i : Nat} {a : Option Nat × Option Nat} :
    a ∈ aloneOrPaired related m i ↔ (a = (some i, none) ∧ ∀ j < m, ¬related i j = true) ∨
      ∃ j < m, related i j = true ∧ a = (some i, some j) := by
  unfold aloneOrPaired
  cases hpartners : partners related m i with
  | nil =>
    have hnone := partners_eq_nil.1 hpartners
    simp only [List.mem_singleton]
    refine ⟨fun h => .inl ⟨h, hnone⟩, fun h => h.elim And.left ?_⟩
    rintro ⟨j, hj, hrelated, -⟩
    exact absurd hrelated (hnone j hj)
  | cons j js =>
    have hmem {k : Nat} : k ∈ j :: js ↔ k < m ∧ related i k = true := by
      rw [← hpartners, mem_partners]
    simp only [List.mem_map, hmem]
    constructor
    · rintro ⟨k, ⟨hk, hrelated⟩, rfl⟩
      exact .inr ⟨k, hk, hrelated, rfl⟩
    · rintro (⟨-, hnone⟩ | ⟨k, hk, hrelated, rfl⟩)
      · obtain ⟨hj, hrelated⟩ := hmem.1 List.mem_cons_self
        exact absurd hrelated (hnone j hj)
      · exact ⟨k, ⟨hk, hrelated⟩, rfl⟩

theorem pairwise_partners (i : Nat) :
    ((partners related m i).map fun j => (some i, some j)).Pairwise (Before .inner) := by
  have hpartners : (partners related m i).Pairwise (· < ·) :=
    List.pairwise_lt_range.filter _
  exact List.pairwise_map.2 (hpartners.imp fun h => .inr ⟨rfl, Option.some_lt_some.2 h⟩)

theorem lists_inner : Lists .inner (fun i j => related i j = true) n m (pairs .inner related n m) := by
  have hmem {a : Option Nat × Option Nat} : a ∈ pairs .inner related n m ↔
      ∃ i < n, ∃ j < m, related i j = true ∧ a = (some i, some j) := by
    simp only [pairs, List.mem_flatMap, List.mem_range, List.mem_map, mem_partners]
    refine exists_congr fun i => and_congr_right fun _ => exists_congr fun j => ?_
    rw [and_assoc, eq_comm (a := (some i, some j))]
  refine ⟨fun i j => ?_, fun i => ?_, fun j => ?_, ?_, ?_⟩
  · simp [hmem]
  · simp [hmem]
  · simp [hmem]
  · simp [hmem]
  · refine List.pairwise_flatMap.2 ⟨fun i _ => pairwise_partners i, ?_⟩
    refine List.pairwise_lt_range.imp fun {i i'} hlt a ha b hb => ?_
    obtain ⟨j, -, rfl⟩ := List.mem_map.1 ha
    obtain ⟨j', -, rfl⟩ := List.mem_map.1 hb
    exact .inl (Option.some_lt_some.2 hlt)

theorem lists_left : Lists .left (fun i j => related i j = true) n m (pairs .left related n m) := by
  have hmem {a : Option Nat × Option Nat} : a ∈ pairs .left related n m ↔
      ∃ i < n, (a = (some i, none) ∧ ∀ j < m, ¬related i j = true) ∨
        ∃ j < m, related i j = true ∧ a = (some i, some j) := by
    simp only [pairs_left, List.mem_flatMap, List.mem_range, mem_aloneOrPaired]
  refine ⟨fun i j => ?_, fun i => ?_, fun j => ?_, ?_, ?_⟩
  · simp [hmem]
  · simp [hmem]
  · simp [hmem]
  · simp [hmem]
  · have hfirst {i : Nat} {a : Option Nat × Option Nat} (ha : a ∈ aloneOrPaired related m i) :
        a.1 = some i := by
      rcases mem_aloneOrPaired.1 ha with ⟨rfl, -⟩ | ⟨j, -, -, rfl⟩ <;> rfl
    refine List.pairwise_flatMap.2 ⟨fun i _ => ?_, ?_⟩
    · split
      · exact List.pairwise_singleton _ _
      · exact pairwise_partners i
    · refine List.pairwise_lt_range.imp fun {i i'} hlt a ha b hb => .inl ?_
      rw [hfirst ha, hfirst hb]
      exact Option.some_lt_some.2 hlt

/-- A right join is a left join with the tables exchanged. -/
theorem pairs_right (related : Nat → Nat → Bool) (n m : Nat) :
    pairs .right related n m =
      (pairs .left (fun j i => related i j) m n).map Prod.swap := by
  simp only [pairs, List.map_flatMap]
  congr 1
  funext j
  split <;> simp_all [Function.comp_def]

theorem Lists.swap {matched : Nat → Nat → Prop} {rows : List (Option Nat × Option Nat)}
    (h : Lists .left (fun j i => matched i j) m n rows) :
    Lists .right matched n m (rows.map Prod.swap) := by
  have hmem {a b : Option Nat} : (a, b) ∈ rows.map Prod.swap ↔ (b, a) ∈ rows := by
    simp
  refine ⟨fun i j => ?_, fun i => ?_, fun j => ?_, ?_, ?_⟩
  · rw [hmem, h.pair, and_left_comm]
  · rw [hmem, h.rightAlone]
    simp
  · rw [hmem, h.leftAlone]
    simp
  · rw [hmem]
    exact h.noneAlone
  · exact List.pairwise_map.2 h.order

/-- The pairs of a join are listed. -/
theorem lists_pairs (mode : JoinMode) {matched : Nat → Nat → Prop}
    (h : ∀ i j, related i j = true ↔ matched i j) (n m : Nat) :
    mode.Lists matched n m (mode.pairs related n m) := by
  obtain rfl : (fun i j => related i j = true) = matched := by
    funext i j
    exact propext (h i j)
  cases mode with
  | inner => exact lists_inner
  | left => exact lists_left
  | right =>
    rw [pairs_right]
    exact lists_left.swap

end JoinMode

end TableQuery
