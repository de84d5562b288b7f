import TableQuery.Proofs.Orderly.Basic

/-!
# Groups place by place

For the rows of a group, an expression that reduces nothing gives at each place what it gives for
the row at that place, and it fails with what one of those rows fails with. So the columns that meet
inside it are equally long.
-/

namespace TableQuery

/-- Whether a fault says that two columns are of different lengths. -/
@[simp]
def Fault.isLengths : Fault → Bool
  | .execution (.lengths ..) => true
  | _ => false

/-- Data that hold something for each of a number of places. -/
class Placed (α : Type) where
  fits (n : Nat) (a : α) : Prop
  /-- What the data hold for a place. -/
  place (i : Nat) (a : α) : α

open Placed

/-- A computation follows others, one for each place, if it gives what they give, or else fails with
what one of them fails with, which is nothing about lengths. -/
def Follows {α : Type} [Placed α] (n : Nat) (whole : Except Fault α) (each : Nat → Except Fault α) :
    Prop :=
  match whole with
  | .ok a => fits n a ∧ ∀ i < n, each i = .ok (place i a)
  | .error e => e.isLengths = false ∧ ∃ i < n, each i = .error e

namespace Follows

variable {α β : Type} [Placed α] [Placed β] {n : Nat}

theorem ok {a : α} {each : Nat → Except Fault α} (ha : fits n a)
    (h : ∀ i < n, each i = .ok (place i a)) : Follows n (.ok a) each :=
  ⟨ha, h⟩

/-- A fault that comes up at every place. -/
theorem error {e : Fault} {each : Nat → Except Fault α} (hn : 0 < n) (he : e.isLengths = false)
    (h : each 0 = .error e) : Follows n (.error e) each :=
  ⟨he, 0, hn, h⟩

/-- Only the places that there are matter. -/
theorem congr {whole : Except Fault α} {each each' : Nat → Except Fault α} (h : Follows n whole each)
    (hs : ∀ i < n, each' i = each i) : Follows n whole each' := by
  cases whole with
  | ok a => exact ⟨h.1, fun i hi => (hs i hi).trans (h.2 i hi)⟩
  | error e =>
    obtain ⟨he, i, hi, hei⟩ := h
    exact ⟨he, i, hi, (hs i hi).trans hei⟩

/-- One step after the other. -/
theorem bind {whole : Except Fault α} {each : Nat → Except Fault α} {f : α → Except Fault β}
    {g : Nat → α → Except Fault β} (h : Follows n whole each)
    (hf : ∀ a, fits n a → Follows n (f a) fun i => g i (place i a)) :
    Follows n (whole >>= f) fun i => each i >>= g i := by
  cases whole with
  | ok a =>
    refine (hf a h.1).congr fun i hi => ?_
    rw [h.2 i hi, ok_bind]
  | error e =>
    obtain ⟨he, i, hi, hei⟩ := h
    refine ⟨he, i, hi, ?_⟩
    simp only [hei, error_bind]

/-- The whole succeeds exactly if it does at each place. -/
theorem isOk_iff {whole : Except Fault α} {each : Nat → Except Fault α} (h : Follows n whole each) :
    (∃ a, whole = .ok a) ↔ ∀ i < n, ∃ a, each i = .ok a := by
  constructor
  · rintro ⟨a, rfl⟩ i hi
    exact ⟨_, h.2 i hi⟩
  · intro hall
    cases whole with
    | ok a => exact ⟨a, rfl⟩
    | error e =>
      obtain ⟨-, i, hi, he⟩ := h
      obtain ⟨a, ha⟩ := hall i hi
      cases he.symm.trans ha

theorem freeOf_lengths {whole : Except Fault α} {each : Nat → Except Fault α}
    (h : Follows n whole each) : FreeOf Fault.isLengths whole := by
  rintro e rfl
  exact h.1

end Follows

/-! ## Data -/

namespace Datum

variable {α β γ : Type} {n i : Nat}

/-- A single value goes with any number of places, a column with as many as it has values. -/
def Fits (n : Nat) : Datum α → Prop
  | .one _ => True
  | .many xs => xs.length = n

instance : Placed (Datum Scalar) where
  fits := Fits
  place i a := .one (a.scalarAt i)

instance : Placed (List (Datum Scalar)) where
  fits n as := ∀ a ∈ as, a.Fits n
  place i as := as.map (place i)

theorem place_eq (a : Datum Scalar) : place i a = .one (a.scalarAt i) :=
  rfl

@[simp]
theorem scalarAt_one (x : Scalar) : (one x).scalarAt i = x :=
  rfl

theorem scalarAt_many {xs : List Scalar} (hi : i < xs.length) : (many xs).scalarAt i = xs[i] := by
  simp [scalarAt, get?, hi]

/-- A value computed for each place. -/
theorem scalarAt_range {f : Nat → Scalar} (hi : i < n) :
    (many ((List.range n).map f)).scalarAt i = f i := by
  simp [scalarAt, get?, hi]

theorem fits_range (f : Nat → α) : (many ((List.range n).map f)).Fits n := by
  simp [Fits]

theorem Fits.map {a : Datum α} (ha : a.Fits n) (f : α → β) : (a.map f).Fits n := by
  cases a with
  | one x => trivial
  | many xs => exact List.length_map f |>.trans ha

/-- A function of every value is a function of the value at each place. -/
theorem place_map {a : Datum Scalar} (ha : a.Fits n) (hi : i < n) (f : Scalar → Scalar) :
    place i (a.map f) = (place i a).map f := by
  cases a with
  | one x => rfl
  | many xs =>
    have hi : i < xs.length := ha ▸ hi
    simp [place_eq, map, scalarAt, get?, hi]

theorem follows_map {a : Datum Scalar} (ha : a.Fits n) (f : Scalar → Scalar) :
    Follows n (.ok (a.map f)) fun i => .ok ((place i a).map f) :=
  .ok (ha.map f) fun _ hi => congrArg Except.ok (place_map ha hi f).symm

/-- A step for every value of a column. -/
theorem follows_many {xs : List α} {f : α → Except Fault Scalar}
    {each : Nat → Except Fault (Datum Scalar)} (hf : ∀ x, FreeOf Fault.isLengths (f x))
    (h : ∀ (i : Nat) (hi : i < xs.length), each i = one <$> f xs[i]) :
    Follows xs.length (many <$> xs.mapM f) each := by
  cases hys : xs.mapM f with
  | ok ys =>
    obtain ⟨hlength, hvalues⟩ := List.forall₂_iff_get.1 (mapM_eq_ok.1 hys)
    refine .ok hlength.symm fun i hi => ?_
    have hy : f xs[i] = .ok ys[i] := hvalues i hi (hlength ▸ hi)
    rw [h i hi, hy, place_eq, scalarAt_many (hlength ▸ hi)]
    rfl
  | error e =>
    obtain ⟨i, hi, he⟩ := exists_of_mapM_eq_error hys
    refine ⟨hf _ e he, i, hi, ?_⟩
    rw [h i hi, he]
    rfl

/-- A step for a single value, which stands at every place. -/
theorem follows_one {x : Except Fault Scalar} (hn : 0 < n) (hx : FreeOf Fault.isLengths x) :
    Follows n (one <$> x) fun _ => one <$> x := by
  cases x with
  | ok y => exact .ok trivial fun i _ => rfl
  | error e => exact .error hn (hx e rfl) rfl

theorem follows_mapM {a : Datum Scalar} {f : Scalar → Except Fault Scalar} (hn : 0 < n)
    (ha : a.Fits n) (hf : ∀ x, FreeOf Fault.isLengths (f x)) :
    Follows n (a.mapM f) fun i => (place i a).mapM f := by
  cases a with
  | one x => exact follows_one hn (hf x)
  | many xs =>
    obtain rfl : xs.length = n := ha
    refine follows_many hf fun i hi => ?_
    rw [place_eq, scalarAt_many hi]
    rfl

/-- Values side by side meet place by place. -/
theorem follows_zipM {a b : Datum Scalar} {f : Scalar → Scalar → Except Fault Scalar} (hn : 0 < n)
    (ha : a.Fits n) (hb : b.Fits n) (hf : ∀ x y, FreeOf Fault.isLengths (f x y)) :
    Follows n (zipM f a b) fun i => zipM f (place i a) (place i b) := by
  cases a with
  | one x =>
    cases b with
    | one y => exact follows_one hn (hf x y)
    | many ys =>
      obtain rfl : ys.length = n := hb
      refine follows_many (hf x) fun i hi => ?_
      rw [place_eq (many ys), scalarAt_many hi]
      rfl
  | many xs =>
    obtain rfl : xs.length = n := ha
    cases b with
    | one y =>
      refine follows_many (fun x => hf x y) fun i hi => ?_
      rw [place_eq (many xs), scalarAt_many hi]
      rfl
    | many ys =>
      have hlength : xs.length = ys.length := hb.symm
      have hzip : (xs.zip ys).length = xs.length := by simp [hlength]
      rw [zipM, if_pos hlength]
      refine hzip ▸ follows_many (fun p => hf p.1 p.2) fun i hi => ?_
      rw [hzip] at hi
      rw [place_eq, place_eq, scalarAt_many hi, scalarAt_many (hlength ▸ hi)]
      simp [zipM]

/-- Nothing changes the length of data that go with it. -/
theorem commonLengthFrom_some {as : List (Datum α)} (has : ∀ a ∈ as, a.Fits n) :
    commonLengthFrom (some n) as = .ok (some n) := by
  induction as with
  | nil => rfl
  | cons a as ih =>
    have ih := ih fun b hb => has b (List.mem_cons_of_mem a hb)
    have ha : a.Fits n := has a List.mem_cons_self
    cases a with
    | one x => exact ih
    | many xs =>
      obtain rfl : xs.length = n := ha
      exact (if_pos rfl).trans ih

/-- Data for the same places have their length in common, unless all are single values. -/
theorem commonLength_of_fits {as : List (Datum α)} (has : ∀ a ∈ as, a.Fits n) :
    commonLength as = .ok (some n) ∨ ∀ a ∈ as, a.length? = none := by
  unfold commonLength
  induction as with
  | nil => exact .inr nofun
  | cons a as ih =>
    have hall : ∀ b ∈ as, b.Fits n := fun b hb => has b (List.mem_cons_of_mem a hb)
    have ha : a.Fits n := has a List.mem_cons_self
    cases a with
    | one x => exact (ih hall).imp_right fun h => List.forall_mem_cons.2 ⟨rfl, h⟩
    | many xs =>
      obtain rfl : xs.length = n := ha
      exact .inl (commonLengthFrom_some hall)

theorem commonLength_of_one {as : List (Datum α)} (h : ∀ a ∈ as, a.length? = none) :
    commonLength as = .ok none := by
  unfold commonLength
  induction as with
  | nil => rfl
  | cons a as ih =>
    have ih := ih fun b hb => h b (List.mem_cons_of_mem a hb)
    cases a with
    | one x => exact ih
    | many xs => cases h _ List.mem_cons_self

/-- Single values stand at every place. -/
theorem map_scalarAt_of_one {as : List (Datum Scalar)} (h : ∀ a ∈ as, a.length? = none)
    (i j : Nat) : (as.map fun a => a.scalarAt i) = as.map fun a => a.scalarAt j := by
  refine List.map_congr_left fun a ha => ?_
  cases a with
  | one x => rfl
  | many xs => cases h _ ha

/-- All values, a single one as often as there are places, are the values at the places. -/
theorem forall₂_toList {a : Datum Scalar} {xs : List β} {p : β → Scalar → Prop}
    (ha : a.Fits xs.length) (h : ∀ (i : Nat) (hi : i < xs.length), p xs[i] (a.scalarAt i)) :
    List.Forall₂ p xs (a.toList xs.length) := by
  have hlength : (a.toList xs.length).length = xs.length := by
    cases a with
    | one x => exact List.length_replicate
    | many ys => exact ha
  refine List.forall₂_iff_get.2 ⟨hlength.symm, fun i hi hi' => ?_⟩
  have hvalue : (a.toList xs.length)[i] = a.scalarAt i := by
    cases a with
    | one x => simp [toList]
    | many ys => exact (scalarAt_many hi').symm
  rw [List.get_eq_getElem, List.get_eq_getElem, hvalue]
  exact h i hi

end Datum

/-! ## Functions -/

namespace ScalarFunction

open Datum

variable {n : Nat}

/-- A function that gives for columns, place by place, what it gives for the values there. -/
def IsPlacewise (f : ScalarFunction) : Prop :=
  ∀ n args, 0 < n → (∀ a ∈ args, a.Fits n) →
    Follows n (f.apply args) fun i => f.apply (place i args)

/-- Among single values, the first that is there. -/
theorem applyCoalesce_of_one {args : List (Datum Scalar)} (h : ∀ a ∈ args, a.length? = none)
    (i : Nat) :
    applyCoalesce args = .ok (.one (firstPresent (args.map fun a => a.scalarAt i))) := by
  rw [applyCoalesce, commonLength_of_one h, map_scalarAt_of_one h i 0]
  rfl

theorem applyCoalesce_place (args : List (Datum Scalar)) (i : Nat) :
    applyCoalesce (place i args) =
      .ok (.one (firstPresent (args.map fun a => a.scalarAt i))) := by
  have hone : ∀ a ∈ place i args, a.length? = none := by
    intro a ha
    obtain ⟨b, -, rfl⟩ := List.mem_map.1 ha
    rfl
  rw [applyCoalesce_of_one hone i]
  exact congrArg (fun xs => Except.ok (one (firstPresent xs))) List.map_map

theorem isPlacewise_coalesce (least : Nat) (most : Option Nat) :
    (coalesce least most).IsPlacewise := by
  intro n args hn hargs
  change Follows n (applyCoalesce args) fun i => applyCoalesce (place i args)
  rcases commonLength_of_fits hargs with h | h
  · rw [applyCoalesce, h, ok_bind]
    refine .ok (fits_range _) fun i hi => ?_
    rw [applyCoalesce_place, place_eq, scalarAt_range hi]
  · rw [applyCoalesce_of_one h 0]
    refine .ok trivial fun i hi => ?_
    rw [applyCoalesce_place, map_scalarAt_of_one h i 0]
    rfl

/-- A condition for each place chooses there. -/
theorem applyIf_many {cs : List Scalar} {yes no : Datum Scalar}
    (h : ∀ a ∈ [many cs, yes, no], a.Fits n) :
    applyIf [many cs, yes, no] = .ok (.many ((List.range n).map fun i =>
      if ((many cs).scalarAt i).holds then yes.scalarAt i else no.scalarAt i)) := by
  have hlength : commonLength [many cs, yes, no] = .ok (some n) := by
    refine (commonLength_of_fits h).resolve_right fun hone => ?_
    cases hone (many cs) List.mem_cons_self
  change commonLength [many cs, yes, no] >>= _ = _
  rw [hlength]
  rfl

theorem isPlacewise_choice : choice.IsPlacewise := by
  intro n args hn hargs
  change Follows n (applyIf args) fun i => applyIf (place i args)
  match args with
  | [.one c, yes, no] =>
    change Follows n (.ok (if c.holds then yes else no)) fun i =>
      .ok (if c.holds then place i yes else place i no)
    split
    · exact .ok (hargs yes (by simp)) fun i _ => rfl
    · exact .ok (hargs no (by simp)) fun i _ => rfl
  | [.many cs, yes, no] =>
    rw [applyIf_many hargs]
    refine .ok (fits_range _) fun i hi => ?_
    change Except.ok (if ((many cs).scalarAt i).holds then place i yes else place i no) = _
    rw [place_eq (many _), scalarAt_range hi]
    split <;> rfl
  | [] | [_] | [_, _] | _ :: _ :: _ :: _ :: _ => exact .ok trivial fun i _ => rfl

/-- What the built-in functions do, they do place by place. -/
theorem isPlacewise_of_builtin {e : String × ScalarFunction} (h : e ∈ Functions.builtin) :
    e.2.IsPlacewise :=
  Functions.of_mem_builtin isPlacewise_coalesce isPlacewise_choice h

end ScalarFunction

/-! ## Expressions -/

/-- The row at a place. -/
def Rows.rowAt (r : Rows) (i : Nat) : Nat :=
  match r with
  | .single row => row
  | .group rows => rows.getD i 0

@[simp]
theorem Rows.rowAt_group {rows : List Nat} {i : Nat} (hi : i < rows.length) :
    (group rows).rowAt i = rows[i] := by
  simp [rowAt, hi]

theorem Rows.follows_column (d : Loaded) (name : String) {r : Rows} (hr : 0 < r.count) :
    Follows r.count (r.column d name) fun i => (single (r.rowAt i)).column d name := by
  unfold column Loaded.values
  cases d.columns.lookup name with
  | none => exact .error hr rfl rfl
  | some xs =>
    cases r with
    | single row => exact .ok trivial fun i _ => rfl
    | group rows =>
      refine .ok (List.length_map _) fun i hi => ?_
      have hi : i < rows.length := hi
      rw [Datum.place_eq, Datum.scalarAt_many (by simpa using hi)]
      simp [hi]

theorem Scalar.freeOf_lengths_binary (op : BinaryOp) (a b : Scalar) :
    FreeOf Fault.isLengths (binary op a b) := by
  unfold binary comparison arithmetic
  repeat' split
  all_goals simp

theorem Scalar.freeOf_lengths_negate (x : Scalar) : FreeOf Fault.isLengths (negate x) := by
  unfold negate
  split <;> simp

namespace Bound

mutual

/-- Whether a bound expression reduces the rows of a group to one value. -/
def reduces : Bound → Bool
  | .const _ => false
  | .column _ => false
  | .call _ _ args => anyReduces args
  | .aggregate _ _ => true
  | .rowCount => true
  | .neg x => reduces x
  | .not x => reduces x
  | .binary _ l r => reduces l || reduces r
  | .isNull x _ => reduces x
  | .inList x items _ => reduces x || anyReduces items

def anyReduces : List Bound → Bool
  | [] => false
  | x :: xs => reduces x || anyReduces xs

end

section

variable {columns : List String} {functions : Functions} {scope : Scope}

mutual

/-- What is bound to an expression without aggregates reduces nothing. -/
theorem reduces_of_ofExpr {inAggregate : Bool} {e : Expr} {x : Bound}
    (h : ofExpr columns functions scope inAggregate e = .ok x)
    (he : e.containsAggregate = false) : x.reduces = false := by
  cases e with
  | literal v =>
    cases h
    rfl
  | column name =>
    obtain ⟨c, -, h⟩ := bind_eq_ok.1 h
    cases h
    rfl
  | countStar => cases he
  | call name args =>
    obtain ⟨hname, hargs⟩ := Bool.or_eq_false_iff.1 he
    have hname : Aggregate.ofName? name = none := Option.not_isSome_iff_eq_none.1 (by simp [hname])
    simp only [ofExpr, hname] at h
    obtain ⟨f, -, h⟩ := bind_eq_ok.1 h
    obtain ⟨ys, hys, h⟩ := bind_eq_ok.1 h
    cases h
    exact anyReduces_of_ofExprs hys hargs
  | neg e | not e =>
    obtain ⟨y, hy, h⟩ := bind_eq_ok.1 h
    cases h
    change y.reduces = false
    exact reduces_of_ofExpr hy he
  | binary op l r =>
    obtain ⟨hl, hr⟩ := Bool.or_eq_false_iff.1 he
    obtain ⟨y, hy, h⟩ := bind_eq_ok.1 h
    obtain ⟨z, hz, h⟩ := bind_eq_ok.1 h
    cases h
    exact Bool.or_eq_false_iff.2 ⟨reduces_of_ofExpr hy hl, reduces_of_ofExpr hz hr⟩
  | isNull e negated =>
    obtain ⟨y, hy, h⟩ := bind_eq_ok.1 h
    cases h
    change y.reduces = false
    exact reduces_of_ofExpr hy he
  | inList e items negated =>
    obtain ⟨he, hitems⟩ := Bool.or_eq_false_iff.1 he
    obtain ⟨y, hy, h⟩ := bind_eq_ok.1 h
    obtain ⟨ys, hys, h⟩ := bind_eq_ok.1 h
    cases h
    exact Bool.or_eq_false_iff.2 ⟨reduces_of_ofExpr hy he, anyReduces_of_ofExprs hys hitems⟩

theorem anyReduces_of_ofExprs {inAggregate : Bool} {es : List Expr} {xs : List Bound}
    (h : ofExprs columns functions scope inAggregate es = .ok xs)
    (hes : Expr.anyAggregate es = false) : anyReduces xs = false := by
  cases es with
  | nil =>
    cases h
    rfl
  | cons e es =>
    obtain ⟨he, hes⟩ := Bool.or_eq_false_iff.1 hes
    obtain ⟨y, hy, h⟩ := bind_eq_ok.1 h
    obtain ⟨ys, hys, h⟩ := bind_eq_ok.1 h
    cases h
    exact Bool.or_eq_false_iff.2 ⟨reduces_of_ofExpr hy he, anyReduces_of_ofExprs hys hes⟩

end

end

section

variable (d : Loaded) {r : Rows}

open Datum Scalar

mutual

/-- An expression that reduces nothing has its value place by place. -/
theorem follows_eval (hr : 0 < r.count) (x : Bound) (hx : x.reduces = false)
    (hcalls : ∀ f ∈ x.calls, f.IsPlacewise) :
    Follows r.count (x.eval d r) fun i => x.eval d (.single (r.rowAt i)) := by
  cases x with
  | const v => exact .ok trivial fun i _ => rfl
  | column name => exact Rows.follows_column d name hr
  | rowCount => cases hx
  | aggregate a x => cases hx
  | call name f args =>
    have hargs := follows_evalAll hr args hx fun g hg => hcalls g (List.mem_cons_of_mem f hg)
    exact hargs.bind fun vs hvs => hcalls f List.mem_cons_self r.count vs hr hvs
  | neg x =>
    exact (follows_eval hr x hx hcalls).bind fun v hv => follows_mapM hr hv freeOf_lengths_negate
  | not x => exact (follows_eval hr x hx hcalls).bind fun v hv => follows_map hv complement
  | isNull x negated => exact (follows_eval hr x hx hcalls).bind fun v hv => follows_map hv _
  | binary op x y =>
    obtain ⟨hx, hy⟩ := Bool.or_eq_false_iff.1 hx
    have hleft := follows_eval hr x hx fun f hf => hcalls f (List.mem_append_left _ hf)
    have hright := follows_eval hr y hy fun f hf => hcalls f (List.mem_append_right _ hf)
    exact hleft.bind fun v hv => hright.bind fun w hw =>
      follows_zipM hr hv hw (freeOf_lengths_binary op)
  | inList x items negated =>
    obtain ⟨hx, hitems⟩ := Bool.or_eq_false_iff.1 hx
    have htarget := follows_eval hr x hx fun f hf => hcalls f (List.mem_append_left _ hf)
    refine htarget.bind fun target ht => ?_
    have hhits := follows_evalItems hr ht
      (ht.map fun v => if v.isNull then .null else .bool false) items hitems
      fun f hf => hcalls f (List.mem_append_right _ hf)
    refine (hhits.bind fun hits hh => ?_).congr fun i hi => by rw [place_map ht hi]
    cases negated with
    | false => exact .ok hh fun i _ => rfl
    | true => exact follows_map hh complement

/-- So have several expressions. -/
theorem follows_evalAll (hr : 0 < r.count) (xs : List Bound) (hxs : anyReduces xs = false)
    (hcalls : ∀ f ∈ callsOfAll xs, f.IsPlacewise) :
    Follows r.count (evalAll d r xs) fun i => evalAll d (.single (r.rowAt i)) xs := by
  cases xs with
  | nil => exact .ok nofun fun i _ => rfl
  | cons x xs =>
    obtain ⟨hx, hxs⟩ := Bool.or_eq_false_iff.1 hxs
    have hhead := follows_eval hr x hx fun f hf => hcalls f (List.mem_append_left _ hf)
    have htail := follows_evalAll hr xs hxs fun f hf => hcalls f (List.mem_append_right _ hf)
    exact hhead.bind fun v hv => htail.bind fun vs hvs =>
      .ok (List.forall_mem_cons.2 ⟨hv, hvs⟩) fun i _ => rfl

/-- So has the search for a value among several expressions. -/
theorem follows_evalItems (hr : 0 < r.count) {target before : Datum Scalar}
    (ht : target.Fits r.count) (hb : before.Fits r.count) (xs : List Bound)
    (hxs : anyReduces xs = false) (hcalls : ∀ f ∈ callsOfAll xs, f.IsPlacewise) :
    Follows r.count (evalItems d r target before xs) fun i =>
      evalItems d (.single (r.rowAt i)) (place i target) (place i before) xs := by
  cases xs with
  | nil => exact .ok hb fun i _ => rfl
  | cons x xs =>
    obtain ⟨hx, hxs⟩ := Bool.or_eq_false_iff.1 hxs
    have hitem := follows_eval hr x hx fun f hf => hcalls f (List.mem_append_left _ hf)
    refine hitem.bind fun v hv => ?_
    refine (follows_zipM hr ht hv (freeOf_lengths_binary .eq)).bind fun hit hhit => ?_
    refine (follows_zipM hr hb hhit fun a h => .ok (found a h)).bind fun now hnow => ?_
    exact follows_evalItems hr ht hnow xs hxs fun f hf => hcalls f (List.mem_append_right _ hf)

end

end

section

variable {columns : List String} {functions : Functions}

mutual

/-- Where an expression without aggregates stands does not matter to what is bound to it. -/
theorem ofExpr_scope_irrelevant {e : Expr} (he : e.containsAggregate = false)
    (scope scope' : Scope) (inAggregate inAggregate' : Bool) :
    ofExpr columns functions scope inAggregate e =
      ofExpr columns functions scope' inAggregate' e := by
  cases e with
  | literal v => rfl
  | column name => rfl
  | countStar => cases he
  | call name args =>
    obtain ⟨hname, hargs⟩ := Bool.or_eq_false_iff.1 he
    have hname : Aggregate.ofName? name = none := Option.not_isSome_iff_eq_none.1 (by simp [hname])
    simp only [ofExpr, hname,
      ofExprs_scope_irrelevant hargs scope scope' inAggregate inAggregate']
  | neg e | not e | isNull e negated =>
    have he : e.containsAggregate = false := he
    simp only [ofExpr]
    rw [ofExpr_scope_irrelevant he scope scope' inAggregate inAggregate']
  | binary op l r =>
    obtain ⟨hl, hr⟩ := Bool.or_eq_false_iff.1 he
    simp only [ofExpr]
    rw [ofExpr_scope_irrelevant hl scope scope' inAggregate inAggregate',
      ofExpr_scope_irrelevant hr scope scope' inAggregate inAggregate']
  | inList e items negated =>
    obtain ⟨he, hitems⟩ := Bool.or_eq_false_iff.1 he
    simp only [ofExpr]
    rw [ofExpr_scope_irrelevant he scope scope' inAggregate inAggregate',
      ofExprs_scope_irrelevant hitems scope scope' inAggregate inAggregate']

theorem ofExprs_scope_irrelevant {es : List Expr} (hes : Expr.anyAggregate es = false)
    (scope scope' : Scope) (inAggregate inAggregate' : Bool) :
    ofExprs columns functions scope inAggregate es =
      ofExprs columns functions scope' inAggregate' es := by
  cases es with
  | nil => rfl
  | cons e es =>
    obtain ⟨he, hes⟩ := Bool.or_eq_false_iff.1 hes
    simp only [ofExprs]
    rw [ofExpr_scope_irrelevant he scope scope' inAggregate inAggregate',
      ofExprs_scope_irrelevant hes scope scope' inAggregate inAggregate']

end

/-- An aggregate over an expression without aggregates reduces what is bound to that expression. -/
theorem bind_aggregate {name : String} {a : Aggregate} {e : Expr} {scope : Scope} {x y : Bound}
    (ha : Aggregate.ofName? name = some a) (he : e.containsAggregate = false)
    (hx : bind e columns functions scope = .ok x)
    (hy : bind (.call name [e]) columns functions .group = .ok y) : y = .aggregate a x := by
  obtain ⟨z, hz, rfl⟩ := ofExpr_aggregate ha hy
  obtain ⟨x', hx', hz⟩ := bind_eq_ok.1 hz
  have hsame := (ofExpr_scope_irrelevant he .group scope true false).symm.trans hx'
  rw [bind, hsame] at hx
  cases hx
  cases hz
  rfl

end

section

variable {columns : List String} {scope : Scope} {e : Expr} {x : Bound} {rows : List Nat}

/-- With the built-in functions, what is bound to an expression without aggregates has its value
place by place. -/
theorem follows_eval_of_bind (d : Loaded) {r : Rows} (hr : 0 < r.count)
    (hx : bind e columns .builtin scope = .ok x) (he : e.containsAggregate = false) :
    Follows r.count (x.eval d r) fun i => x.eval d (.single (r.rowAt i)) := by
  exact follows_eval d hr x (reduces_of_ofExpr hx he)
    (of_mem_calls_of_builtin (fun _ => ScalarFunction.isPlacewise_of_builtin) hx)

/-- What holds for the row at each place holds for each row. -/
theorem forall_rowAt_iff {p : Nat → Prop} :
    (∀ i < rows.length, p ((Rows.group rows).rowAt i)) ↔ ∀ row ∈ rows, p row := by
  rw [List.forall_mem_iff_getElem]
  exact forall₂_congr fun i hi => by rw [Rows.rowAt_group hi]

/-- The values for a group are those for its rows. -/
theorem values_of_group (d : Loaded) (hrows : rows ≠ [])
    (hx : bind e columns .builtin scope = .ok x) (he : e.containsAggregate = false)
    {v : Datum Scalar} (hv : x.eval d (.group rows) = .ok v) :
    List.Forall₂ (fun row value => x.eval d (.single row) = .ok (.one value)) rows
      (v.toList rows.length) := by
  have h := follows_eval_of_bind d (r := .group rows) (List.length_pos_of_ne_nil hrows) hx he
  rw [hv] at h
  refine Datum.forall₂_toList h.1 fun i hi => ?_
  rw [← Rows.rowAt_group hi]
  exact h.2 i hi

/-- For a group of rows, an expression without aggregates has a value exactly if it has one for each
row, and then its values are those for the rows, one after the other. It never meets columns of
different lengths. So an aggregate over it reduces its values for the rows. -/
theorem eval_group_by_rows (d : Loaded) (hx : bind e columns .builtin scope = .ok x)
    (he : e.containsAggregate = false) (hrows : rows ≠ []) :
    ((∃ v, x.eval d (.group rows) = .ok v) ↔ ∀ row ∈ rows, ∃ v, x.eval d (.single row) = .ok v) ∧
    (∀ v, x.eval d (.group rows) = .ok v →
      List.Forall₂ (fun row value => x.eval d (.single row) = .ok (.one value)) rows
        (v.toList rows.length)) ∧
    (∀ r : Rows, 0 < r.count → ∀ m n, x.eval d r ≠ .error (.execution (.lengths m n))) ∧
    ∀ name a y, Aggregate.ofName? name = some a →
      bind (.call name [e]) columns .builtin .group = .ok y →
      ∀ v, y.eval d (.group rows) = .ok v → ∃ values result,
        List.Forall₂ (fun row value => x.eval d (.single row) = .ok (.one value)) rows values ∧
        a.reduce values = .ok result ∧ v = .one result := by
  refine ⟨?_, fun v hv => values_of_group d hrows hx he hv, fun r hr m n hmn => ?_,
    fun name a y ha hy v hv => ?_⟩
  · have h := follows_eval_of_bind d (r := .group rows) (List.length_pos_of_ne_nil hrows) hx he
    exact h.isOk_iff.trans (forall_rowAt_iff (p := fun row => ∃ v, x.eval d (.single row) = .ok v))
  · have := (follows_eval_of_bind d hr hx he).freeOf_lengths _ hmn
    cases this
  · obtain rfl := bind_aggregate ha he hx hy
    obtain ⟨w, hw, hv⟩ := bind_eq_ok.1 hv
    obtain ⟨result, hresult, hv⟩ := bind_eq_ok.1 hv
    cases hv
    exact ⟨_, result, values_of_group d hrows hx he hw, hresult, rfl⟩

/-- Two rows, the first of them with a null. -/
def parcels : Loaded :=
  ⟨[("weight", #[.int 1, .int 7]), ("price", #[.null, .int 5])], 2⟩

/-- `IF(weight > 3, price, COALESCE(price, 0)) IN (0, weight)`: single values and columns meet. -/
def isCheap : Expr :=
  .inList (.call "IF" [.binary .gt (.column "weight") (.literal (.int 3)), .column "price",
    .call "COALESCE" [.column "price", .literal (.int 0)]]) [.literal (.int 0), .column "weight"] false

theorem parcels_by_rows :
    ∃ x, bind isCheap ["weight", "price"] .builtin .row = .ok x ∧
      (∃ v, x.eval parcels (.group [1, 0, 1]) = .ok v) ∧
      ∀ v, x.eval parcels (.group [1, 0, 1]) = .ok v →
        List.Forall₂ (fun row value => x.eval parcels (.single row) = .ok (.one value)) [1, 0, 1]
          (v.toList 3) := by
  obtain ⟨x, hx⟩ := exists_eq_ok (x := bind isCheap ["weight", "price"] .builtin .row)
    (by decide +kernel)
  have hrows : [1, 0, 1] ≠ [] := by decide
  have h := eval_group_by_rows parcels hx (by decide +kernel) hrows
  refine ⟨x, hx, exists_eq_ok ?_, h.2.1⟩
  cases hx
  decide +kernel

end

end Bound

end TableQuery
