import TableQuery.Bound.Eval
import TableQuery.Proofs.Success

/-!
# Membership in a list of items

Whether a value is among some items is looked up item by item, with a truth value or null for what
has been found so far. On these values the step of the search is the truth table of OR, so looking
up items is the disjunction of the comparisons with them: both have the same values, single ones or
columns, and the same faults.
-/

namespace TableQuery

/-! ## Verdicts -/

/-- The values that comparisons give: truth values and null. -/
inductive Scalar.IsVerdict : Scalar → Prop where
  | null : IsVerdict .null
  | bool (b : Bool) : IsVerdict (.bool b)

/-- A comparison gives null, or a truth value for a first operand that is not null. -/
theorem Scalar.eq_null_or_bool_of_comparison {op : BinaryOp} {x y hit : Scalar}
    (h : comparison op x y = .ok hit) : hit = .null ∨ x.isNull = false ∧ ∃ b, hit = .bool b := by
  unfold comparison at h
  split at h
  · cases h
    exact .inl rfl
  · cases h
    exact .inl rfl
  · next hx _ =>
    split at h
    · cases h
      refine .inr ⟨?_, _, rfl⟩
      cases x with
      | null => exact absurd rfl (hx ·)
      | _ => rfl
    · cases h

theorem Scalar.isVerdict_of_equality {x y hit : Scalar} (h : Scalar.binary .eq x y = .ok hit) :
    hit.IsVerdict := by
  rcases eq_null_or_bool_of_comparison h with rfl | ⟨-, b, rfl⟩
  · exact .null
  · exact .bool b

namespace Datum

variable {α β γ : Type} {p : α → Prop} {q : β → Prop}

/-- All values have a property. -/
def Every (p : α → Prop) : Datum α → Prop
  | .one x => p x
  | .many xs => ∀ x ∈ xs, p x

/-- What a step gives for every two values that stand side by side. -/
theorem every_of_zipM {f : α → β → Except Fault γ} {p : γ → Prop}
    (hf : ∀ x y z, f x y = .ok z → p z) {a : Datum α} {b : Datum β} {c : Datum γ}
    (h : zipM f a b = .ok c) : c.Every p := by
  cases a with
  | one x =>
    cases b with
    | one y =>
      obtain ⟨z, hz, h⟩ := bind_eq_ok.1 h
      cases h
      exact hf x y z hz
    | many ys =>
      obtain ⟨zs, hzs, h⟩ := bind_eq_ok.1 h
      cases h
      intro z hz
      obtain ⟨y, -, hy⟩ := (mem_iff_of_mapM hzs).1 hz
      exact hf x y z hy
  | many xs =>
    cases b with
    | one y =>
      obtain ⟨zs, hzs, h⟩ := bind_eq_ok.1 h
      cases h
      intro z hz
      obtain ⟨x, -, hx⟩ := (mem_iff_of_mapM hzs).1 hz
      exact hf x y z hx
    | many ys =>
      rw [zipM] at h
      split at h
      · obtain ⟨zs, hzs, h⟩ := bind_eq_ok.1 h
        cases h
        intro z hz
        obtain ⟨⟨x, y⟩, -, hxy⟩ := (mem_iff_of_mapM hzs).1 hz
        exact hf x y z hxy
      · cases h

/-- Steps that agree on the values at hand. -/
theorem zipM_congr {f g : α → β → Except Fault γ} (h : ∀ x y, p x → q y → f x y = g x y)
    {a : Datum α} {b : Datum β} (ha : a.Every p) (hb : b.Every q) : zipM f a b = zipM g a b := by
  cases a with
  | one x =>
    cases b with
    | one y => rw [zipM, zipM, h x y ha hb]
    | many ys => rw [zipM, zipM, mapM_congr fun y hy => h x y ha (hb y hy)]
  | many xs =>
    cases b with
    | one y => rw [zipM, zipM, mapM_congr fun x hx => h x y (ha x hx) hb]
    | many ys =>
      have hpairs : ∀ z ∈ xs.zip ys, f z.1 z.2 = g z.1 z.2 := fun z hz =>
        h z.1 z.2 (ha z.1 (List.of_mem_zip hz).1) (hb z.2 (List.of_mem_zip hz).2)
      rw [zipM, zipM, mapM_congr hpairs]

end Datum

namespace Bound

open Scalar (IsVerdict)

theorem isVerdict_found (before hit : Scalar) : (found before hit).IsVerdict := by
  unfold found
  split
  · exact .bool true
  · exact .bool true
  · exact .null
  · exact .null
  · exact .bool false

/-- On truth values and null a step of the search is the disjunction. -/
theorem found_eq_or {before hit : Scalar} (hbefore : before.IsVerdict) (hhit : hit.IsVerdict) :
    .ok (found before hit) = Scalar.binary .or before hit := by
  cases hbefore with
  | null =>
    cases hhit with
    | null => rfl
    | bool b => cases b <;> rfl
  | bool a =>
    cases hhit with
    | null => cases a <;> rfl
    | bool b => cases a <;> cases b <;> rfl

/-- So it is for single values and columns. -/
theorem zipM_found {before hits : Datum Scalar} (hbefore : before.Every IsVerdict)
    (hhits : hits.Every IsVerdict) :
    Datum.zipM (fun a hit => .ok (found a hit)) before hits =
      Datum.zipM (Scalar.binary .or) before hits :=
  Datum.zipM_congr (fun _ _ => found_eq_or) hbefore hhits

theorem every_equality {target item hits : Datum Scalar}
    (h : Datum.zipM (Scalar.binary .eq) target item = .ok hits) : hits.Every IsVerdict :=
  Datum.every_of_zipM (fun _ _ _ => Scalar.isVerdict_of_equality) h

/-! ## The first item -/

/-- What has been found before the first item. -/
def unfound (x : Scalar) : Scalar :=
  if x.isNull then .null else .bool false

/-- After the first item that has been found which its comparison says. -/
theorem found_unfound {x y hit : Scalar} (h : Scalar.binary .eq x y = .ok hit) :
    found (unfound x) hit = hit := by
  rcases Scalar.eq_null_or_bool_of_comparison h with rfl | ⟨hx, b, rfl⟩
  · cases x <;> rfl
  · rw [unfound, hx]
    cases b <;> rfl

/-- So it is in every row of a column. -/
theorem mapM_found_unfound {xs hits : List Scalar}
    (h : List.Forall₂ (fun x hit => ∃ y, Scalar.binary .eq x y = .ok hit) xs hits) :
    (((xs.map unfound).zip hits).mapM fun (a, hit) => (.ok (found a hit) : Except Fault Scalar)) =
      .ok hits := by
  rw [mapM_eq_ok]
  induction h with
  | nil => exact .nil
  | cons hhit _ ih =>
    obtain ⟨y, hy⟩ := hhit
    exact .cons (congrArg Except.ok (found_unfound hy)) ih

/-- And so it is for single values and columns. -/
theorem zipM_found_unfound {target item hits : Datum Scalar}
    (h : Datum.zipM (Scalar.binary .eq) target item = .ok hits) :
    Datum.zipM (fun a hit => .ok (found a hit)) (target.map unfound) hits = .ok hits := by
  cases target with
  | one x =>
    cases item with
    | one y =>
      obtain ⟨hit, hhit, h⟩ := bind_eq_ok.1 h
      cases h
      exact congrArg (fun v => Except.ok (Datum.one v)) (found_unfound hhit)
    | many ys =>
      obtain ⟨hits, hhits, h⟩ := bind_eq_ok.1 h
      cases h
      refine bind_eq_ok.2 ⟨hits, mapM_eq_ok.2 (List.forall₂_same.2 fun hit hhit => ?_), rfl⟩
      obtain ⟨y, -, hy⟩ := (mem_iff_of_mapM hhits).1 hhit
      exact congrArg Except.ok (found_unfound hy)
  | many xs =>
    obtain ⟨hits, rfl, hall⟩ : ∃ hs, hits = .many hs ∧
        List.Forall₂ (fun x hit => ∃ y, Scalar.binary .eq x y = .ok hit) xs hs := by
      cases item with
      | one y =>
        obtain ⟨hits, hhits, h⟩ := bind_eq_ok.1 h
        cases h
        exact ⟨hits, rfl, (mapM_eq_ok.1 hhits).imp fun x hit hx => ⟨y, hx⟩⟩
      | many ys =>
        rw [Datum.zipM] at h
        split at h
        · next hlength =>
          obtain ⟨hits, hhits, h⟩ := bind_eq_ok.1 h
          cases h
          refine ⟨hits, rfl, ?_⟩
          rw [← List.map_fst_zip (Nat.le_of_eq hlength), List.forall₂_map_left_iff]
          exact (mapM_eq_ok.1 hhits).imp fun (x, y) hit hx => ⟨y, hx⟩
        · cases h
    refine (if_pos ?_).trans (bind_eq_ok.2 ⟨hits, mapM_found_unfound hall, rfl⟩)
    rw [List.length_map, hall.length_eq]

/-! ## The search and the disjunction -/

section

variable {d : Loaded} {r : Rows}

/-- One more comparison in a disjunction. -/
def orEquals (x l y : Bound) : Bound :=
  .binary .or l (.binary .eq x y)

/-- The disjunction `x = first OR x = second OR …`, each comparison added at the end. -/
def anyEqual (x first : Bound) (rest : List Bound) : Bound :=
  rest.foldl (orEquals x) (.binary .eq x first)

theorem eval_orEquals_of_error {x l : Bound} {f : Fault} (hl : l.eval d r = .error f)
    (rest : List Bound) : (rest.foldl (orEquals x) l).eval d r = .error f := by
  induction rest generalizing l with
  | nil => exact hl
  | cons y rest ih =>
    refine ih ?_
    rw [orEquals, eval, hl, error_bind]

/-- A disjunction of what has given verdicts so far and one more comparison. -/
theorem eval_orEquals {x l y : Bound} {target : Datum Scalar} (hx : x.eval d r = .ok target)
    (hl : ∀ before, l.eval d r = .ok before → before.Every IsVerdict) :
    (orEquals x l y).eval d r = (do
      let before ← l.eval d r
      let hit ← Datum.zipM (Scalar.binary .eq) target (← y.eval d r)
      Datum.zipM (fun a hit => .ok (found a hit)) before hit) := by
  simp only [orEquals, eval, hx, ok_bind, bind_assoc]
  cases hbefore : l.eval d r with
  | error f => rfl
  | ok before =>
    refine congrArg (y.eval d r >>= ·) (funext fun item => ?_)
    cases hhits : Datum.zipM (Scalar.binary .eq) target item with
    | error f => rfl
    | ok hits => exact (zipM_found (hl before hbefore) (every_equality hhits)).symm

/-- Going on with a disjunction is looking up further items. -/
theorem eval_foldl_orEquals {x : Bound} {target : Datum Scalar} (hx : x.eval d r = .ok target)
    {l : Bound} (hl : ∀ before, l.eval d r = .ok before → before.Every IsVerdict)
    (rest : List Bound) :
    (rest.foldl (orEquals x) l).eval d r =
      l.eval d r >>= fun before => evalItems d r target before rest := by
  induction rest generalizing l with
  | nil => exact (bind_pure _).symm
  | cons y rest ih =>
    have hverdicts : ∀ now, (orEquals x l y).eval d r = .ok now → now.Every IsVerdict := by
      intro now hnow
      rw [eval_orEquals hx hl] at hnow
      obtain ⟨before, -, hnow⟩ := bind_eq_ok.1 hnow
      obtain ⟨item, -, hnow⟩ := bind_eq_ok.1 hnow
      obtain ⟨hits, -, hnow⟩ := bind_eq_ok.1 hnow
      refine Datum.every_of_zipM (fun a hit z hz => ?_) hnow
      cases hz
      exact isVerdict_found a hit
    rw [List.foldl_cons, ih hverdicts, eval_orEquals hx hl]
    simp only [evalItems, bind_assoc]

/-- Before the first item nothing has been found. -/
theorem eval_inList_false (x : Bound) (items : List Bound) :
    (inList x items false).eval d r =
      x.eval d r >>= fun target => evalItems d r target (target.map unfound) items :=
  congrArg (x.eval d r >>= ·) (funext fun _ => bind_pure _)

/-- Looking up items begins with the comparison with the first of them. -/
theorem evalItems_unfound (target : Datum Scalar) (first : Bound) (rest : List Bound) :
    evalItems d r target (target.map unfound) (first :: rest) =
      first.eval d r >>= fun item => Datum.zipM (Scalar.binary .eq) target item >>= fun hits =>
        evalItems d r target hits rest := by
  rw [evalItems]
  refine congrArg (first.eval d r >>= ·) (funext fun item => ?_)
  cases hhits : Datum.zipM (Scalar.binary .eq) target item with
  | error f => rfl
  | ok hits => rw [ok_bind, ok_bind, zipM_found_unfound hhits, ok_bind]

/-- What is found among the items is what the disjunction gives. -/
theorem eval_inList (x first : Bound) (rest : List Bound) :
    (inList x (first :: rest) false).eval d r = (anyEqual x first rest).eval d r := by
  rw [eval_inList_false]
  cases hx : x.eval d r with
  | error f =>
    have hfirst : (binary .eq x first).eval d r = .error f := by rw [eval, hx, error_bind]
    rw [anyEqual, eval_orEquals_of_error hfirst, error_bind]
  | ok target =>
    have hverdicts : ∀ before, (binary .eq x first).eval d r = .ok before →
        before.Every IsVerdict := by
      intro before hbefore
      rw [eval, hx, ok_bind] at hbefore
      obtain ⟨item, -, hhits⟩ := bind_eq_ok.1 hbefore
      exact every_equality hhits
    rw [anyEqual, eval_foldl_orEquals hx hverdicts, eval, hx]
    simp only [ok_bind, evalItems_unfound, bind_assoc]

/-- Membership in a list of items is the disjunction of the comparisons with them, and its opposite
is the opposite of that: for a row or a group, with the same single value, column or fault. -/
theorem eval_inList_eq_anyEqual (d : Loaded) (r : Rows) (x first : Bound) (rest : List Bound) :
    (inList x (first :: rest) false).eval d r = (anyEqual x first rest).eval d r ∧
      (inList x (first :: rest) true).eval d r = (not (anyEqual x first rest)).eval d r := by
  refine ⟨eval_inList x first rest, ?_⟩
  rw [eval, ← eval_inList]
  simp only [eval, bind_assoc]
  rfl

end

end Bound

end TableQuery
