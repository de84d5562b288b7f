import TableQuery.Proofs.Run

/-!
# Sessions without loaders

In a session without loaders every table that is loaded is a registered one, whatever aliases it
gets on the way.
-/

namespace TableQuery

namespace Session

/-- A session without loaders, whose tables have a property. -/
structure Registers (P : Relation → Prop) (s : Session) : Prop where
  loaders : s.loaders = []
  tables : ∀ x ∈ s.tables, P x.2

namespace Registers

variable {P : Relation → Prop} {s : Session}

theorem addTable (h : s.Registers P) (name : String) {r : Relation} (hr : P r) (replace : Bool) :
    (s.addTable name r replace).Registers P := by
  unfold Session.addTable
  split
  · exact h
  · refine ⟨h.loaders, fun x hx => ?_⟩
    rcases Registry.mem_insert hx with rfl | hx
    · exact hr
    · exact h.tables x hx

theorem removeTable (h : s.Registers P) (name : String) : (s.removeTable name).Registers P :=
  ⟨h.loaders, fun x hx => h.tables x (List.mem_of_mem_filter hx)⟩

theorem of_resolveTable (h : s.Registers P) {name : String} {r : Relation}
    (hr : s.resolveTable name = .ok r) : P r := by
  unfold resolveTable at hr
  split at hr
  · next r' hr' =>
    cases hr
    split at hr'
    · cases hr'
    · exact h.tables _ (Registry.mem_of_get? hr')
  · rw [h.loaders] at hr
    cases hr

/-- Loading registers no other tables, and gives a registered one. -/
theorem loadTable (h : s.Registers P) (source : String) (label : Option String) :
    (outcome (loadTable source label none) s).2.Registers P ∧
      ∀ r, (outcome (Session.loadTable source label none) s).1 = .ok r → P r := by
  simp only [Session.loadTable, outcome_bind, outcome_get, outcome_liftM]
  cases hr : s.resolveTable source with
  | error f => exact ⟨h, fun _ hr => by cases hr⟩
  | ok r =>
    have hregistered := h.of_resolveTable hr
    have hresult : ∀ r', (.ok r : Except Fault Relation) = .ok r' → P r' := by
      rintro _ ⟨⟩
      exact hregistered
    dsimp only
    split
    · exact ⟨h, hresult⟩
    · next a _ =>
      have ha := h.addTable a hregistered true
      simp only [outcome_bind, outcome_modify, outcome_get, outcome_liftM]
      cases configBool aliasReplaceKey true (Session.addTable a r true s) with
      | error f => exact ⟨ha, fun _ hr => by cases hr⟩
      | ok replace =>
        cases replace with
        | false => exact ⟨ha, hresult⟩
        | true => exact ⟨ha.removeTable source, hresult⟩

end Registers

/-- A session without loaders, whose tables are at hand and have a property. -/
abbrev HoldsFrames (p : Table → Prop) : Session → Prop :=
  Registers fun r => ∃ t, r = .frame t ∧ p t

end Session

namespace Setting

variable {c : Setting} {p : Table → Prop} {s : Session}

/-- A table that is loaded from tables at hand is one of them, in the form that the engine works
on. -/
theorem frame_of_load (h : s.HoldsFrames p) (t : TableRef) :
    (outcome (c.load t) s).2.HoldsFrames p ∧
      ∀ r, (outcome (c.load t) s).1 = .ok r →
        ∃ u, p u ∧ r.collect = .ok u ∧ r.names = .ok u.names := by
  obtain ⟨hs, hframe⟩ := h.loadTable t.source (if t.isAliased then some t.label else none)
  simp only [load, outcome_bind, outcome_liftM]
  rcases hload : outcome (Session.loadTable t.source
      (if t.isAliased then some t.label else none) none) s with ⟨f | r, s'⟩
  · rw [hload] at hs
    exact ⟨hs, fun _ hr => by cases hr⟩
  · rw [hload] at hs hframe
    obtain ⟨u, rfl, hu⟩ := hframe r rfl
    refine ⟨hs, fun r hr => ?_⟩
    cases hengine : c.engine with
    | eager =>
      rw [hengine] at hr
      cases hr
      exact ⟨u, hu, rfl, rfl⟩
    | deferred =>
      rw [hengine] at hr
      cases hr
      exact ⟨u, hu, rfl, by
        simp [Relation.names, Plan.names, Relation.toPlan, Plan.schema, Table.schema, Table.names]⟩

end Setting

end TableQuery
