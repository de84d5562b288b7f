import TableQuery.Proofs.Orderly.Operators
import TableQuery.Proofs.StepByStep

/-!
# The operator that a run fails at

The failure of a run tells the operator that it comes from, in one stage around the fault that the
operator meets. Everything in front of that operator runs, and no sequence that goes on behind it
does.
-/

namespace TableQuery

open Setting

variable {s s' : Session} {fs : Functions} {ops : List Operator}

/-- A run that fails has operators, all of which get through in front of one that does not. -/
theorem stopsAt_of_execute {f : Failure} (hops : ops ≠ [])
    (h : (outcome (execute fs ops) s).1 = .error f) :
    ∃ before op after g s', ops = before ++ op :: after ∧
      StopsAt ⟨s.engine, fs⟩ none s before op g s' ∧
        f = .execution (.stage ⟨before.length, op.text⟩ g) := by
  rcases runs_or_stops ⟨s.engine, fs⟩ none s ops with
    ⟨output, s₁, hruns⟩ | ⟨before, op, after, g, s₁, rfl, hstops⟩
  · obtain ⟨w, rfl⟩ := hruns.exists_working hops
    rw [hruns.outcome_execute] at h
    cases h
  · rw [outcome_execute, hstops.outcome_executeFrom, Nat.zero_add] at h
    cases h
    exact ⟨before, op, after, g, s₁, rfl, hstops, rfl⟩

/-- What an operator meets is no stage. -/
theorem Setting.StopsAt.isStage_eq_false {c : Setting} {input : Option Working}
    {before : List Operator} {op : Operator} {f : Fault} (h : c.StopsAt input s before op f s')
    (hfs : c.functions.AreOrderly) : f.isStage = false := by
  obtain ⟨w, s₁, -, hstep⟩ := h
  exact (settles_checkedStep_isStage hfs op w s₁).1 f (by rw [hstep])

/-- Of a sequence that stops at an operator, exactly the beginnings in front of it succeed. -/
theorem isOk_take_iff {before after : List Operator} {op : Operator} {f : Fault}
    (h : StopsAt ⟨s.engine, fs⟩ none s before op f s') (k : Nat) :
    (outcome (execute fs ((before ++ op :: after).take k)) s).1.isOk = true ↔
      0 < k ∧ k ≤ before.length := by
  rcases Nat.lt_or_ge before.length k with hk | hk
  · obtain ⟨n, rfl⟩ : ∃ n, k = before.length + (n + 1) :=
      ⟨k - before.length - 1, by omega⟩
    rw [List.take_length_add_append, List.take_succ_cons, outcome_execute, h.outcome_executeFrom]
    exact iff_of_false (by simp [Except.isOk, Except.toBool]) (by omega)
  · rw [List.take_append_of_le_length hk]
    obtain ⟨w, s₁, hbefore, -⟩ := h
    rw [← List.take_append_drop k before] at hbefore
    obtain ⟨w', s₂, hruns, -⟩ := Runs.append_iff.1 hbefore
    rcases k.eq_zero_or_pos with rfl | hpos
    · exact iff_of_false (by simp [Except.isOk, Except.toBool]) (by omega)
    · have hne : before.take k ≠ [] := by
        intro hnil
        have := congrArg List.length hnil
        simp only [List.length_take, List.length_nil] at this
        omega
      obtain ⟨w'', rfl⟩ := hruns.exists_working hne
      rw [hruns.outcome_execute]
      exact iff_of_true rfl ⟨hpos, hk⟩

/-- A run of operators that fails tells the one that does, by its number and its written form. The
fault in the stage is what that operator meets on what the ones in front of it leave, and unless it
comes from a function it is no stage again; the beginnings that succeed are those in front of the
operator; and every sequence that begins with the operators up to that one ends in the same failure
and leaves the same session. -/
theorem failure_is_placed {f : Failure} (hops : ops ≠ [])
    (h : (outcome (execute fs ops) s).1 = .error f) :
    ∃ (i : Nat) (hi : i < ops.length) (g : Fault),
      f = .execution (.stage ⟨i, ops[i].text⟩ g) ∧
      (fs.AreOrderly → g.isStage = false) ∧
      (∃ s', StopsAt ⟨s.engine, fs⟩ none s (ops.take i) ops[i] g s') ∧
      (∀ k, (outcome (execute fs (ops.take k)) s).1.isOk = true ↔ 0 < k ∧ k ≤ i) ∧
      ∀ rest, outcome (execute fs (ops.take (i + 1) ++ rest)) s = outcome (execute fs ops) s := by
  obtain ⟨before, op, after, g, s', rfl, hstops, rfl⟩ := stopsAt_of_execute hops h
  have htake : (before ++ op :: after).take before.length = before := by
    rw [List.take_append_of_le_length (Nat.le_refl _), List.take_length]
  refine ⟨before.length, by simp, g, ?_, fun hfs => hstops.isStage_eq_false hfs, ⟨s', ?_⟩,
    isOk_take_iff hstops, fun rest => ?_⟩
  · simp
  · simpa [htake] using hstops
  · have hcut : (before ++ op :: after).take (before.length + 1) ++ rest =
        before ++ op :: rest := by
      rw [List.take_length_add_append, List.take_succ_cons, List.take_zero, List.append_assoc]
      rfl
    rw [hcut, outcome_execute, outcome_execute, hstops.outcome_executeFrom,
      hstops.outcome_executeFrom]

/-- A session on the deferred engine with a table of amounts and notes. -/
def annotated : Session :=
  { Session.new with
    tables := [("T", .frame ⟨[⟨"amount", .int64, [.int 1, .int 2]⟩,
      ⟨"note", .str, [.str "x", .str "y"]⟩]⟩)]
    engine := .deferred }

/-- The third of these operators subtracts a note. -/
def subtractNotes : List Operator :=
  [.load ⟨"T", "T"⟩, .limit 0 1,
    .project [.named (.binary .sub (.column "amount") (.column "note")) "amount - note" (some "d")],
    .limit 0 1]

theorem subtractNotes_fails_at_projection :
    ∃ f g, (outcome (execute .builtin subtractNotes) annotated).1 = .error f ∧
      f = .execution (.stage ⟨2, "PROJECT [amount - note AS d]"⟩ g) ∧ g.isStage = false ∧
      (∀ k, (outcome (execute .builtin (subtractNotes.take k)) annotated).1.isOk = true ↔
        0 < k ∧ k ≤ 2) ∧
      ∀ rest, outcome (execute .builtin (subtractNotes.take 3 ++ rest)) annotated =
        outcome (execute .builtin subtractNotes) annotated := by
  have hne : subtractNotes ≠ [] := List.cons_ne_nil _ _
  have hplace : ((outcome (execute .builtin subtractNotes) annotated).1.map fun _ => ()).mapError
      Failure.stage = .error (some ⟨2, "PROJECT [amount - note AS d]"⟩) := by
    decide +kernel
  cases h : (outcome (execute .builtin subtractNotes) annotated).1 with
  | ok w =>
    rw [h] at hplace
    cases hplace
  | error f =>
    obtain ⟨i, hi, g, rfl, hstage, -, hbeginnings, hrest⟩ := failure_is_placed hne h
    rw [h] at hplace
    obtain ⟨rfl, htext⟩ : i = 2 ∧ subtractNotes[i].text = "PROJECT [amount - note AS d]" := by
      simpa [Except.mapError, Failure.stage] using hplace
    exact ⟨_, g, rfl, by rw [htext], hstage Functions.areOrderly_builtin, hbeginnings, hrest⟩

end TableQuery
