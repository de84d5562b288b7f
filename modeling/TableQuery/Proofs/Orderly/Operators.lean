import TableQuery.Proofs.Orderly.Session

/-!
# Operators without faults of the runner

What an operator does to its table raises faults of its own, and the runner adds two things: it says
which operator failed, and it refuses operators in a wrong order. So the fault of a step never
stands in a stage, and it says that operators stand in a wrong order only if they do: the table is
grouped where a plain one is wanted, or there is none, or there is one already.
-/

namespace TableQuery

theorem Working.freeOf_intoPlain_of_keys {bad : Fault → Bool} {w : Working} (hw : w.keys = none)
    (what : String) : FreeOf bad (w.intoPlain what) := by
  simp [intoPlain, hw]

theorem Working.freeOf_intoPlain_isStage (w : Working) (what : String) :
    FreeOf Fault.isStage (w.intoPlain what) := by
  unfold intoPlain
  split <;> simp

namespace Setting

variable {c : Setting} {bad : Fault → Bool} {w : Working}

/-- A result that is not grouped, or a fault that is not of a kind. -/
def IsPlain (bad : Fault → Bool) (x : Except Fault Working) : Prop :=
  FreeOf bad x ∧ ∀ w, x = .ok w → w.keys = none

theorem isPlain_map {α : Type} {x : Except Fault α} (hx : FreeOf bad x) (f : α → Relation) :
    IsPlain bad (do return .plain (f (← x))) :=
  ⟨.bind hx fun _ => .pure _, fun w hw => by
    obtain ⟨a, -, h⟩ := bind_eq_ok.1 hw
    cases h
    rfl⟩

theorem isPlain_bind {α : Type} {x : Except Fault α} (hx : FreeOf bad x)
    {f : α → Except Fault Working} (hf : ∀ a, IsPlain bad (f a)) : IsPlain bad (x >>= f) :=
  ⟨.bind hx fun a => (hf a).1, fun w hw => by
    obtain ⟨a, -, h⟩ := bind_eq_ok.1 hw
    exact (hf a).2 w h⟩

theorem IsPlain.settles {x : Except Fault Working} (h : IsPlain bad x) :
    Settles bad (liftM x) fun w => w.keys = none :=
  .lift h.1 h.2

theorem orderly_slots (keys items : List Item) : Orderly (slots keys items) := by
  unfold slots
  exact .ite (by simp) (by simp)

section

variable (hbad : ∀ f, bad f = true → f.isOfRunner = true)

include hbad

/-- What is orderly is free of each kind of faults of the runner. -/
theorem freeOf_of_orderly {α : Type} {x : Except Fault α} (hx : Orderly x) : FreeOf bad x :=
  hx.runner.mono hbad

theorem isPlain_project (hfs : c.functions.AreOrderly) (items : List Item) :
    IsPlain bad (c.project w items) := by
  unfold project
  split
  · refine isPlain_bind (freeOf_of_orderly hbad w.table.orderly_names) fun columns => ?_
    exact isPlain_map (freeOf_of_orderly hbad (c.engine.orderly_project hfs _ _)) id
  · refine isPlain_bind (freeOf_of_orderly hbad (orderly_slots _ _)) fun slots => ?_
    exact isPlain_map (freeOf_of_orderly hbad (c.engine.orderly_aggregate hfs _ _ _)) id

section

variable (hw : ∀ what, FreeOf bad (w.intoPlain what))

include hw

theorem isPlain_filter (hfs : c.functions.AreOrderly) (condition : String) :
    IsPlain bad (c.filter w condition) := by
  have hfilter e r := freeOf_of_orderly hbad (c.engine.orderly_filter hfs e r)
  unfold filter
  split
  · next e _ =>
    exact isPlain_bind (.pure e) fun e => isPlain_bind (hw _) fun r => isPlain_map (hfilter e r) id
  · next cause _ =>
    have hparse : FreeOf Fault.isOfRunner (throw (.parse cause) : Except Fault Expr) := by simp
    exact isPlain_bind (hparse.mono hbad) fun e =>
      isPlain_bind (hw _) fun r => isPlain_map (hfilter e r) id

theorem isPlain_order (hfs : c.functions.AreOrderly) (items : List OrderItem) :
    IsPlain bad (c.order w items) := by
  have hsort keys r := freeOf_of_orderly hbad (c.engine.orderly_sort keys r)
  refine isPlain_bind (hw _) fun r => ?_
  refine isPlain_bind (freeOf_of_orderly hbad r.orderly_names) fun columns => ?_
  dsimp only
  split
  · exact isPlain_map (hsort _ r) id
  · refine isPlain_bind (freeOf_of_orderly hbad (c.engine.orderly_extend hfs _ r)) fun r' => ?_
    refine isPlain_bind (hsort _ r') fun r'' => ?_
    exact isPlain_map (freeOf_of_orderly hbad (c.engine.orderly_select columns r'')) id

theorem freeOf_group (hfs : c.functions.AreOrderly) (keys projection : List Item) :
    FreeOf bad (c.group w keys projection) := by
  have hcolumn columns key : Orderly (keyColumn columns key) := by
    unfold keyColumn
    split <;> simp
  refine .bind (hw _) fun r => freeOf_of_orderly hbad (.bind r.orderly_names fun columns => ?_)
  refine .bind (.mapM (fun key => .map (hcolumn columns key)) keys) fun resolved => ?_
  refine .bind (orderly_slots _ _) fun _ => .ite (by simp) ?_
  exact .bind (c.engine.orderly_extend hfs _ r) fun _ => by simp

theorem settles_join (t : TableRef) (mode : JoinMode) (on : List JoinKey) :
    Settles bad (c.join w t mode on) fun w' => w'.keys = none := by
  refine .lift_bind (hw _) fun left => ?_
  have hload := (settles_load (c := c) t).mono fun f hf =>
    Fault.isOfSequence_of_isOfRunner (hbad f hf)
  refine .bind hload fun right _ => ?_
  refine .lift_bind (freeOf_of_orderly hbad left.orderly_names) fun ls => ?_
  refine .lift_bind (freeOf_of_orderly hbad right.orderly_names) fun rs => ?_
  refine .lift_bind (freeOf_of_orderly hbad (JoinPlan.orderly_ofKeys _ _ _ _ _)) fun plan => ?_
  exact .lift_bind ((c.engine.freeOf_join plan left right).mono hbad) fun r => .pure rfl

theorem settles_limit (offset count : UInt64) :
    Settles bad (do
      return Working.plain (← c.engine.window offset count (← w.intoPlain "LIMIT")) :
        SessionM Working) fun w' => w'.keys = none := by
  refine .lift_bind (hw _) fun r => ?_
  have hwindow := freeOf_of_orderly hbad (c.engine.orderly_window offset count r)
  exact .lift_bind hwindow fun _ => .pure rfl

end

end

/-! ## Stages -/

/-- No operator fails with a stage, on whatever it is given: a stage in a failure of a run comes
from the runner. -/
theorem settles_step_isStage (hfs : c.functions.AreOrderly) (op : Operator)
    (input : Option Working) : Settles Fault.isStage (c.step op input) fun _ => True := by
  have hbad (f : Fault) (hf : f.isStage = true) : f.isOfRunner = true :=
    Fault.isOfRunner_of_isStage hf
  cases input with
  | none =>
    cases op with
    | load t =>
      have hload := (settles_load (c := c) t).mono fun f hf =>
        Fault.isOfSequence_of_isOfRunner (hbad f hf)
      exact .bind hload fun r _ => .pure trivial
    | _ => exact .throw rfl
  | some w =>
    have hw := w.freeOf_intoPlain_isStage
    cases op with
    | load t => exact .throw rfl
    | join t mode on => exact (settles_join hbad hw t mode on).imp fun _ _ => trivial
    | project items => exact .lift (isPlain_project hbad hfs items).1 fun _ _ => trivial
    | filter condition => exact .lift (isPlain_filter hbad hw hfs condition).1 fun _ _ => trivial
    | group keys projection =>
      exact .lift (freeOf_group hbad hw hfs keys projection) fun _ _ => trivial
    | order items => exact .lift (isPlain_order hbad hw hfs items).1 fun _ _ => trivial
    | limit offset count => exact (settles_limit hbad hw offset count).imp fun _ _ => trivial

theorem settles_checkedStep_isStage (hfs : c.functions.AreOrderly) (op : Operator)
    (input : Option Working) : Settles Fault.isStage (c.checkedStep op input) fun _ => True := by
  have hnames (w : Working) : FreeOf Fault.isStage w.table.names :=
    w.table.orderly_names.runner.mono fun _ => Fault.isOfRunner_of_isStage
  exact .bind (settles_step_isStage hfs op input) fun w _ =>
    .lift_bind (hnames w) fun _ => .pure trivial

end Setting

end TableQuery
