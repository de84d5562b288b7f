import TableQuery.Proofs.Engines.Alike
import TableQuery.Proofs.StepByStep
import TableQuery.Proofs.WellShaped

/-!
# Windows of rows

A limit keeps the rows from its offset on, as many as it counts or as there are. The engines cut its
numbers to what they can count, but not below the number of rows, so every limit succeeds on both of
them and keeps the same rows; and limits in sequence keep those that are left of the first window
when the others look at it.
-/

namespace TableQuery

/-- The places from `offset` on, `count` of them, among the first `n`. -/
def placesWithin (n offset count : Nat) : List Nat :=
  (List.range n).filter fun i => decide (offset ≤ i ∧ i < offset + count)

theorem placesWithin_eq (n offset count : Nat) :
    placesWithin n offset count = ((List.range n).drop offset).take count := by
  unfold placesWithin
  induction n with
  | zero => simp
  | succ n ih =>
    rw [List.range_succ, List.filter_append, ih, List.drop_append, List.take_append,
      List.length_drop, List.length_range]
    congr 1
    by_cases hoffset : offset ≤ n
    · rw [Nat.sub_eq_zero_of_le hoffset, List.drop_zero]
      by_cases hcount : n < offset + count
      · obtain ⟨k, hk⟩ : ∃ k, count - (n - offset) = k + 1 := ⟨count - (n - offset) - 1, by omega⟩
        simp [hoffset, hcount, hk]
      · have hnone : count - (n - offset) = 0 := by omega
        simp [hcount, hnone]
    · have hdrop : [n].drop (offset - n) = [] := List.drop_eq_nil_of_le (by simp; omega)
      simp [hoffset, hdrop]

namespace Table

variable {t : Table}

/-- The rows of a window are those at its places. -/
theorem window_eq_take (ht : t.IsRectangular) (offset count : Nat) :
    t.window offset count = t.take (placesWithin t.height offset count) := by
  rw [window, take, Table.mk.injEq]
  refine List.map_congr_left fun c hc => ?_
  have hcells : (List.range t.height).map (fun i => c.cells[i]?.getD .null) = c.cells := by
    rw [← ht c hc]
    exact map_getD_range c.cells .null
  rw [Column.take, placesWithin_eq]
  simp only [List.map_map, Function.comp_def, Option.bind_some, List.getElem?_toArray, List.map_take,
    List.map_drop, hcells]

/-- A window of a window begins as much later as that one does, and has what is left of it. -/
theorem window_window (t : Table) (offset count offset' count' : Nat) :
    (t.window offset count).window offset' count' =
      t.window (offset + offset') (min count' (count - offset')) := by
  simp [window, Function.comp_def, List.drop_take, List.take_take]

theorem isRectangular_window (ht : t.IsRectangular) (offset count : Nat) :
    (t.window offset count).IsRectangular ∧ (t.window offset count).height ≤ t.height := by
  have hlength : ∀ c ∈ (t.window offset count).columns,
      c.cells.length = min count (t.height - offset) := by
    refine List.forall_mem_map.2 fun c hc => ?_
    simp [ht c hc]
  refine ⟨isRectangular_of_cells hlength, ?_⟩
  rcases eq_or_ne (t.window offset count).columns [] with hnil | hne
  · simp [height, hnil]
  · rw [(isRectangular_of_length hne hlength).2]
    omega

end Table

namespace Engine

variable {r : Relation} {t : Table} {names : List String}

/-- A limit succeeds on either engine and gives the window that it asks for. -/
theorem exists_window (e : Engine) (hr : r.collect = .ok t) (hnames : r.names = .ok names)
    (ht : t.IsRectangular) (hrows : t.height < UInt32.size) (offset count : UInt64) :
    ∃ r', e.window offset count r = .ok r' ∧ r'.names = .ok names ∧
      r'.collect = .ok (t.window offset.toNat count.toNat) := by
  cases e with
  | eager =>
    refine ⟨.frame (Eager.window offset count t), ?_, ?_, ?_⟩
    · rw [window, apply, hr]
      rfl
    · rw [Relation.names, Eager.window, Table.names_window, Relation.names_of_collect hnames hr]
    · rw [Relation.collect, Eager.window_eq ht]
  | deferred =>
    refine ⟨.plan (Deferred.window offset count r.toPlan), rfl, ?_, ?_⟩
    · rw [← hnames, ← Relation.names_plan_toPlan r]
      rfl
    · rw [Relation.collect, Deferred.window, Plan.collect, Relation.collect_toPlan, hr, ok_bind,
        Table.window_bounded ht hrows]
      rfl

end Engine

namespace Setting

variable {c : Setting} {r : Relation} {t : Table} {names : List String}

/-- Operators make one table of another, whatever the session, and leave that as it is. -/
def Makes (c : Setting) (r : Relation) (ops : List Operator) (t : Table) : Prop :=
  ∃ r', r'.collect = .ok t ∧
    ∀ i s, outcome (c.executeFrom i (some (.plain r)) ops) s = (.ok (.plain r'), s)

/-- Limits in sequence give the window of the window, and so on. -/
theorem makes_limits (hr : r.collect = .ok t) (hnames : r.names = .ok names)
    (ht : t.IsRectangular) (hrows : t.height < UInt32.size) (windows : List (UInt64 × UInt64)) :
    c.Makes r (windows.map fun w => .limit w.1 w.2)
      (windows.foldl (fun t w => t.window w.1.toNat w.2.toNat) t) := by
  induction windows generalizing r t with
  | nil => exact ⟨r, hr, fun i s => rfl⟩
  | cons w windows ih =>
    obtain ⟨r₁, hwindow, hnames₁, hr₁⟩ :=
      c.engine.exists_window hr hnames ht hrows w.1 w.2
    obtain ⟨ht₁, hheight⟩ := Table.isRectangular_window ht w.1.toNat w.2.toNat
    obtain ⟨r', hr', hruns⟩ := ih hr₁ hnames₁ ht₁ (Nat.lt_of_le_of_lt hheight hrows)
    refine ⟨r', hr', fun i s => ?_⟩
    have hstep : c.Steps (some (.plain r)) s (.limit w.1 w.2) (.plain r₁) s := .limit rfl hwindow
    rw [List.map_cons, outcome_executeFrom_cons, hstep.checkedStep_eq hnames₁]
    exact hruns (i + 1) s

/-- A limit keeps the rows at the places from its offset on, on both engines, and never fails; a
second limit keeps those at its own places among them. -/
theorem limit_keeps_places (functions : Functions) (hr : r.collect = .ok t)
    (hnames : r.names = .ok names) (ht : t.IsRectangular) (hrows : t.height < UInt32.size)
    (e : Engine) (offset count offset' count' : UInt64) :
    Makes ⟨e, functions⟩ r [.limit offset count]
        (t.take (placesWithin t.height offset.toNat count.toNat)) ∧
      Makes ⟨e, functions⟩ r [.limit offset count, .limit offset' count']
        (t.take (placesWithin t.height (offset.toNat + offset'.toNat)
          (min count'.toNat (count.toNat - offset'.toNat)))) := by
  rw [← Table.window_eq_take ht, ← Table.window_eq_take ht, ← Table.window_window]
  exact ⟨makes_limits hr hnames ht hrows [(offset, count)],
    makes_limits hr hnames ht hrows [(offset, count), (offset', count')]⟩

/-- Four numbers in a column. -/
def fourNumbers : Table :=
  ⟨[⟨"n", .int64, [.int 1, .int 2, .int 3, .int 4]⟩]⟩

/-- Of all rows from the second one on, those from the third of them on, as many as there are. -/
theorem fourNumbers_limited : fourNumbers.IsRectangular ∧ fourNumbers.height < UInt32.size ∧
    ∀ e : Engine, Makes ⟨e, .builtin⟩ (.frame fourNumbers)
      [.limit 1 18446744073709551615, .limit 2 18446744073709551615]
      ⟨[⟨"n", .int64, [.int 4]⟩]⟩ := by
  have hshape : fourNumbers.IsRectangular := by unfold Table.IsRectangular; decide
  refine ⟨hshape, by decide, fun e => ?_⟩
  exact (limit_keeps_places .builtin rfl rfl hshape (by decide) e
    1 18446744073709551615 2 18446744073709551615).2

end Setting

end TableQuery
