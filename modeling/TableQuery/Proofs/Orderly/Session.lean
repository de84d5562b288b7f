import TableQuery.Proofs.Orderly.Engine
import TableQuery.Proofs.Run

/-!
# Operations on a session without faults of a kind

What is shown of computations carries over to operations that read and change a session: a property
of results is handed on from each operation to the next one, whatever is in the session. Loading a
table, with its alias and the settings it asks for, is orderly.
-/

namespace TableQuery

/-- An operation without faults of a certain kind, whose results have a property. -/
def Settles {α : Type} (bad : Fault → Bool) (m : SessionM α) (p : α → Prop) : Prop :=
  ∀ s, FreeOf bad (outcome m s).1 ∧ ∀ a, (outcome m s).1 = .ok a → p a

namespace Settles

variable {α β : Type} {bad : Fault → Bool}

theorem lift {x : Except Fault α} (hx : FreeOf bad x) {p : α → Prop}
    (hp : ∀ a, x = .ok a → p a) : Settles bad (liftM x) p := by
  intro s
  rw [outcome_liftM]
  exact ⟨hx, hp⟩

theorem bind {m : SessionM α} {f : α → SessionM β} {p : α → Prop} {q : β → Prop}
    (hm : Settles bad m p) (hf : ∀ a, p a → Settles bad (f a) q) : Settles bad (m >>= f) q := by
  intro s
  obtain ⟨horder, hp⟩ := hm s
  rw [outcome_bind]
  rcases h : outcome m s with ⟨e | a, s'⟩
  · rw [h] at horder
    exact ⟨fun f hf => horder f (by cases hf; rfl), fun a ha => by cases ha⟩
  · exact hf a (hp a (by rw [h])) s'

/-- An operation goes on with whatever a computation without such faults gives. -/
theorem lift_bind {x : Except Fault α} (hx : FreeOf bad x) {f : α → SessionM β} {q : β → Prop}
    (hf : ∀ a, Settles bad (f a) q) : Settles bad (liftM x >>= f) q :=
  .bind (.lift hx fun _ _ => trivial) fun a _ => hf a

theorem pure {a : α} {p : α → Prop} (h : p a) : Settles bad (Pure.pure a) p :=
  fun _ => ⟨FreeOf.ok a, fun _ hb => by cases hb; exact h⟩

theorem get {p : Session → Prop} (h : ∀ s, p s) : Settles bad MonadState.get p :=
  fun s => ⟨FreeOf.ok s, fun a _ => h a⟩

theorem throw {f : Fault} (hf : bad f = false) {p : α → Prop} :
    Settles bad (throw f : SessionM α) p :=
  fun _ => ⟨(FreeOf.error_iff f).2 hf, fun _ h => by cases h⟩

theorem imp {m : SessionM α} {p q : α → Prop} (h : Settles bad m p) (hpq : ∀ a, p a → q a) :
    Settles bad m q :=
  fun s => ⟨(h s).1, fun a ha => hpq a ((h s).2 a ha)⟩

/-- What is free of more faults is free of fewer. -/
theorem mono {bad' : Fault → Bool} {m : SessionM α} {p : α → Prop} (h : Settles bad' m p)
    (hbad : ∀ f, bad f = true → bad' f = true) : Settles bad m p :=
  fun s => ⟨(h s).1.mono hbad, (h s).2⟩

theorem modify (f : Session → Session) : Settles bad (modify f) fun _ => True :=
  fun _ => ⟨FreeOf.ok _, fun _ _ => trivial⟩

end Settles

/-- Loading a table may fail, but not for the order of operators. -/
theorem Session.settles_loadTable (source : String) (label : Option String)
    (replaceAlias : Option Bool) :
    Settles Fault.isOfSequence (loadTable source label replaceAlias) fun _ => True := by
  refine .bind (.get fun _ => trivial) fun s _ => ?_
  refine .lift_bind (s.orderly_resolveTable source) fun r => ?_
  split
  · exact .pure trivial
  · refine .bind (.modify _) fun _ _ => ?_
    have tail : ∀ b : Bool, Settles Fault.isOfSequence (do
        if b then modify (removeTable source)
        return r : SessionM Relation) fun _ => True := by
      intro b
      cases b with
      | false => exact .pure trivial
      | true => exact .bind (.modify _) fun _ _ => .pure trivial
    split
    · exact tail _
    · refine .bind (.get fun _ => trivial) fun s' _ => ?_
      exact .lift_bind (orderly_configBool _ _ s') tail

namespace Setting

variable {c : Setting}

theorem settles_load (t : TableRef) : Settles Fault.isOfSequence (c.load t) fun _ => True :=
  .bind (Session.settles_loadTable _ _ _) fun r _ =>
    .lift (c.engine.orderly_adopt r) fun _ _ => trivial

end Setting

end TableQuery
