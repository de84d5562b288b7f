import TableQuery.Operator.Json
import TableQuery.Proofs.JsonTexts

/-!
# Operators read back from their JSON text

Every record and every choice is read from its written form. What may be lost is lost in the text: a
double is not told from a whole number there, and the reader refuses brackets that stand more than
127 deep inside one another, where the writer has no such limit. So a sequence of operators without
doubles is read back exactly if its brackets do not stand deeper.
-/

namespace TableQuery

open Json (choice isExact areExact fieldsAreExact)

/-! ## Lists and numbers -/

namespace Json

theorem list?_map {α : Type} {item : Json → Option α} {write : α → Json} {xs : List α}
    (h : ∀ x ∈ xs, item (write x) = some x) : (arr (xs.map write)).list? item = some xs := by
  rw [list?]
  induction xs with
  | nil => rfl
  | cons x xs ih =>
    obtain ⟨hx, hxs⟩ := List.forall_mem_cons.1 h
    rw [List.map_cons, List.mapM_cons, hx, ih hxs]
    rfl

theorem uint64?_toNat (n : UInt64) : (int n.toNat).uint64? = some n := by
  change (if n.toNat < UInt64.size then some (UInt64.ofNat n.toNat) else none) = some n
  rw [if_pos n.toNat_lt, UInt64.ofNat_toNat]

theorem depth_le_depthOfItems {items : List Json} {x : Json} (h : x ∈ items) :
    x.depth ≤ depthOfItems items := by
  induction items with
  | nil => cases h
  | cons y items ih =>
    rw [depthOfItems]
    rcases List.mem_cons.1 h with rfl | h
    · exact Nat.le_max_left _ _
    · exact Nat.le_trans (ih h) (Nat.le_max_right _ _)

theorem areExact_iff {items : List Json} :
    areExact items = true ↔ ∀ x ∈ items, x.isExact = true := by
  induction items with
  | nil => simp [areExact]
  | cons x items ih => rw [areExact, Bool.and_eq_true, ih, List.forall_mem_cons]

theorem areExact_map {α : Type} {write : α → Json} {xs : List α}
    (h : ∀ x ∈ xs, (write x).isExact = true) : areExact (xs.map write) = true := by
  rw [areExact_iff]
  exact List.forall_mem_map.2 h

theorem isExact_toNat (n : UInt64) : (int n.toNat).isExact = true := by
  have hn := n.toNat_lt
  have hmin : Int64.minValue.toInt = -9223372036854775808 := rfl
  simp only [isExact, Bool.and_eq_true, decide_eq_true_eq, Int.ofNat_lt]
  exact ⟨by omega, hn⟩

end Json

/-! ## Expressions -/

theorem Scalar.ofJson?_toJson (l : Scalar) : Scalar.ofJson? l.toJson = some l := by
  cases l with
  | null => rfl
  | bool b => rfl
  | int i =>
    change (Number.toInt64? i.toInt).map Scalar.int = _
    rw [Number.toInt64?_toInt, Option.map_some]
  | float x => rfl
  | str s => rfl

theorem BinaryOp.ofJson?_name (op : BinaryOp) : BinaryOp.ofJson? (.str op.name) = some op := by
  cases op <;> rfl

namespace Expr

/-- The expressions directly inside an expression. -/
def parts : Expr → List Expr
  | .literal _ => []
  | .column _ => []
  | .call _ args => args
  | .countStar => []
  | .neg e => [e]
  | .not e => [e]
  | .binary _ l r => [l, r]
  | .isNull e _ => [e]
  | .inList e items _ => e :: items

theorem toJsons_eq_map (es : List Expr) : toJsons es = es.map toJson := by
  induction es with
  | nil => rfl
  | cons e es ih => rw [toJsons, ih, List.map_cons]

/-- The brackets of a part stand inside brackets of the whole. -/
theorem depth_toJson_lt {e p : Expr} (h : p ∈ e.parts) : p.toJson.depth < e.toJson.depth := by
  have hlist : ∀ es : List Expr, p ∈ es → p.toJson.depth ≤ Json.depthOfItems (toJsons es) := by
    intro es hp
    rw [toJsons_eq_map]
    exact Json.depth_le_depthOfItems (List.mem_map_of_mem hp)
  cases e with
  | literal _ | column _ | countStar => cases h
  | call name args =>
    have hp := hlist args h
    simp only [toJson, choice, Json.depth, Json.depthOfFields]
    omega
  | neg e | not e | isNull e _ =>
    obtain rfl := List.mem_singleton.1 h
    simp only [toJson, choice, Json.depth, Json.depthOfFields]
    omega
  | binary op l r =>
    have hp : p = l ∨ p = r := by simpa [parts] using h
    simp only [toJson, choice, Json.depth, Json.depthOfFields]
    rcases hp with rfl | rfl <;> omega
  | inList e items negated =>
    have hp : p.toJson.depth ≤ max e.toJson.depth (Json.depthOfItems (toJsons items)) := by
      rcases List.mem_cons.1 h with rfl | h
      · exact Nat.le_max_left _ _
      · exact Nat.le_trans (hlist items h) (Nat.le_max_right _ _)
    simp only [toJson, choice, Json.depth, Json.depthOfFields]
    omega

/-- An expression is read from its JSON form if its parts are. -/
theorem ofJsonWith_toJson {part : Json → Option Expr} {e : Expr}
    (h : ∀ p ∈ e.parts, part p.toJson = some p) : ofJsonWith part e.toJson = some e := by
  have hlist : ∀ es : List Expr, (∀ p ∈ es, part p.toJson = some p) →
      (Json.arr (toJsons es)).list? part = some es := by
    intro es hes
    rw [toJsons_eq_map]
    exact Json.list?_map hes
  cases e with
  | literal l =>
    change (Scalar.ofJson? l.toJson).map literal = _
    rw [Scalar.ofJson?_toJson, Option.map_some]
  | column name => rfl
  | countStar => rfl
  | call name args =>
    change ((Json.arr (toJsons args)).list? part).bind (fun es => some (call name es)) = _
    rw [hlist args h, Option.bind_some]
  | neg e =>
    change (part e.toJson).bind (fun e => some e.neg) = _
    rw [h e List.mem_cons_self, Option.bind_some]
  | not e =>
    change (part e.toJson).bind (fun e => some e.not) = _
    rw [h e List.mem_cons_self, Option.bind_some]
  | binary op l r =>
    change (BinaryOp.ofJson? (.str op.name)).bind (fun op => (part l.toJson).bind fun l =>
      (part r.toJson).bind fun r => some (binary op l r)) = _
    rw [BinaryOp.ofJson?_name, h l List.mem_cons_self,
      h r (List.mem_cons_of_mem _ List.mem_cons_self)]
    rfl
  | isNull e negated =>
    change (part e.toJson).bind (fun e => some (isNull e negated)) = _
    rw [h e List.mem_cons_self, Option.bind_some]
  | inList e items negated =>
    obtain ⟨he, hitems⟩ := List.forall_mem_cons.1 h
    change (part e.toJson).bind (fun e => ((Json.arr (toJsons items)).list? part).bind
      fun items => some (inList e items negated)) = _
    rw [he, hlist items hitems]
    rfl

theorem ofJsonWithin_toJson {e : Expr} {n : Nat} (h : e.toJson.depth ≤ n) :
    ofJsonWithin n e.toJson = some e := by
  induction n generalizing e with
  | zero => exact ofJsonWith_toJson fun p hp => absurd (depth_toJson_lt hp) (by omega)
  | succ n ih =>
    refine ofJsonWith_toJson fun p hp => ih ?_
    have := depth_toJson_lt hp
    omega

theorem ofJson?_toJson (e : Expr) : ofJson? e.toJson = some e :=
  ofJsonWithin_toJson (Nat.le_refl _)

end Expr

/-! ## Items and operators -/

theorem Item.ofJson?_toJson (i : Item) : Item.ofJson? i.toJson = some i := by
  change (Expr.ofJson? i.expr.toJson).bind (fun e => some (Item.mk e i.text i.label)) = some i
  rw [Expr.ofJson?_toJson, Option.bind_some]

theorem JoinMode.ofJson?_name (m : JoinMode) : JoinMode.ofJson? (.str m.name) = some m := by
  cases m <;> rfl

theorem OrderItem.ofJson?_toJson (i : OrderItem) : OrderItem.ofJson? i.toJson = some i := by
  change (Item.ofJson? i.item.toJson).bind (fun item => some (OrderItem.mk item i.ascending)) =
    some i
  rw [Item.ofJson?_toJson, Option.bind_some]

namespace Operator

theorem ofJson?_toJson (o : Operator) : ofJson? o.toJson = some o := by
  have hitems : ∀ items : List Item,
      (Json.arr (items.map Item.toJson)).list? Item.ofJson? = some items :=
    fun _ => Json.list?_map fun i _ => i.ofJson?_toJson
  cases o with
  | load table => rfl
  | join table mode on =>
    have hon : (Json.arr (on.map JoinKey.toJson)).list? JoinKey.ofJson? = some on :=
      Json.list?_map fun _ _ => rfl
    change (JoinMode.ofJson? (.str mode.name)).bind (fun mode =>
      ((Json.arr (on.map JoinKey.toJson)).list? JoinKey.ofJson?).bind fun on =>
        some (join table mode on)) = _
    rw [JoinMode.ofJson?_name, hon]
    rfl
  | project items =>
    change ((Json.arr (items.map Item.toJson)).list? Item.ofJson?).map project = _
    rw [hitems, Option.map_some]
  | filter condition => rfl
  | group keys projection =>
    change ((Json.arr (keys.map Item.toJson)).list? Item.ofJson?).bind (fun keys =>
      ((Json.arr (projection.map Item.toJson)).list? Item.ofJson?).bind fun projection =>
        some (group keys projection)) = _
    rw [hitems, hitems]
    rfl
  | order items =>
    change ((Json.arr (items.map OrderItem.toJson)).list? OrderItem.ofJson?).map order = _
    rw [Json.list?_map fun i _ => i.ofJson?_toJson, Option.map_some]
  | limit offset count =>
    change (Json.int offset.toNat).uint64?.bind (fun offset =>
      (Json.int count.toNat).uint64?.bind fun count => some (limit offset count)) = _
    rw [Json.uint64?_toNat, Json.uint64?_toNat]
    rfl

end Operator

/-! ## Literals -/

namespace Expr

mutual

/-- The literals of an expression, from left to right. -/
def literals : Expr → List Scalar
  | .literal l => [l]
  | .column _ => []
  | .countStar => []
  | .call _ args => literalsOfAll args
  | .neg e => literals e
  | .not e => literals e
  | .isNull e _ => literals e
  | .binary _ l r => literals l ++ literals r
  | .inList e items _ => literals e ++ literalsOfAll items

def literalsOfAll : List Expr → List Scalar
  | [] => []
  | e :: es => literals e ++ literalsOfAll es

end

end Expr

/-- A literal that is no double is told by its JSON form. -/
theorem Scalar.isExact_toJson {l : Scalar} (h : l.kind ≠ .float) : l.toJson.isExact = true := by
  cases l with
  | null => rfl
  | bool b => rfl
  | int i =>
    have hmin := i.minValue_le_toInt
    have hmax := i.toInt_le
    have hsize : ((UInt64.size : Nat) : Int) = 18446744073709551616 := rfl
    have hgreatest : Int64.maxValue.toInt = 9223372036854775807 := rfl
    simp only [toJson, choice, isExact, fieldsAreExact, Bool.and_true, Bool.and_eq_true,
      decide_eq_true_eq]
    omega
  | float x => exact absurd rfl h
  | str s => rfl

namespace Expr

mutual

theorem isExact_toJson (e : Expr) (h : ∀ l ∈ e.literals, l.kind ≠ .float) :
    e.toJson.isExact = true := by
  cases e with
  | literal l =>
    have hl := Scalar.isExact_toJson (h l List.mem_cons_self)
    simp [toJson, choice, isExact, fieldsAreExact, hl]
  | column name => rfl
  | countStar => rfl
  | call name args =>
    have hargs := areExact_toJsons args h
    simp [toJson, choice, isExact, fieldsAreExact, hargs]
  | neg e =>
    have he := isExact_toJson e h
    simp [toJson, choice, isExact, fieldsAreExact, he]
  | not e =>
    have he := isExact_toJson e h
    simp [toJson, choice, isExact, fieldsAreExact, he]
  | binary op l r =>
    obtain ⟨hl, hr⟩ := List.forall_mem_append.1 h
    have hl := isExact_toJson l hl
    have hr := isExact_toJson r hr
    simp [toJson, choice, isExact, fieldsAreExact, hl, hr]
  | isNull e negated =>
    have he := isExact_toJson e h
    simp [toJson, choice, isExact, fieldsAreExact, he]
  | inList e items negated =>
    obtain ⟨he, hitems⟩ := List.forall_mem_append.1 h
    have he := isExact_toJson e he
    have hitems := areExact_toJsons items hitems
    simp [toJson, choice, isExact, fieldsAreExact, he, hitems]

theorem areExact_toJsons (es : List Expr) (h : ∀ l ∈ literalsOfAll es, l.kind ≠ .float) :
    areExact (toJsons es) = true := by
  cases es with
  | nil => rfl
  | cons e es =>
    obtain ⟨he, hes⟩ := List.forall_mem_append.1 h
    rw [toJsons, areExact, isExact_toJson e he, areExact_toJsons es hes]
    rfl

end

end Expr

theorem Item.isExact_toJson (i : Item) (h : ∀ l ∈ i.expr.literals, l.kind ≠ .float) :
    i.toJson.isExact = true := by
  simp [toJson, isExact, fieldsAreExact, Expr.isExact_toJson i.expr h]

namespace Operator

/-- The expressions of an operator, in the order in which it has them. -/
def exprs : Operator → List Expr
  | .load _ => []
  | .join .. => []
  | .project items => items.map Item.expr
  | .filter _ => []
  | .group keys projection => keys.map Item.expr ++ projection.map Item.expr
  | .order items => items.map fun i => i.item.expr
  | .limit .. => []

/-- Whether no literal of an operator is a double. -/
def IsFreeOfDoubles (o : Operator) : Prop :=
  ∀ e ∈ o.exprs, ∀ l ∈ e.literals, l.kind ≠ .float

instance (o : Operator) : Decidable o.IsFreeOfDoubles :=
  inferInstanceAs (Decidable (∀ e ∈ o.exprs, ∀ l ∈ e.literals, l.kind ≠ .float))

theorem isExact_toJson {o : Operator} (h : o.IsFreeOfDoubles) : o.toJson.isExact = true := by
  have hitems : ∀ items : List Item,
      (∀ e ∈ items.map Item.expr, ∀ l ∈ e.literals, l.kind ≠ .float) →
      areExact (items.map Item.toJson) = true := fun items hall =>
    Json.areExact_map fun i hi => i.isExact_toJson (hall _ (List.mem_map_of_mem hi))
  cases o with
  | load table => rfl
  | join table mode on =>
    have hon : areExact (on.map JoinKey.toJson) = true := Json.areExact_map fun _ _ => rfl
    simp [toJson, TableRef.toJson, choice, isExact, fieldsAreExact, hon]
  | project items => simp [toJson, choice, isExact, fieldsAreExact, hitems items h]
  | filter condition => rfl
  | group keys projection =>
    obtain ⟨hkeys, hprojection⟩ := List.forall_mem_append.1 h
    simp [toJson, choice, isExact, fieldsAreExact, hitems keys hkeys,
      hitems projection hprojection]
  | order items =>
    have hall : areExact (items.map OrderItem.toJson) = true := by
      refine Json.areExact_map fun i hi => ?_
      have hitem := i.item.isExact_toJson (h _ (List.mem_map_of_mem hi))
      simp [OrderItem.toJson, isExact, fieldsAreExact, hitem]
    simp [toJson, choice, isExact, fieldsAreExact, hall]
  | limit offset count =>
    change ((Json.int offset.toNat).isExact && ((Json.int count.toNat).isExact && true) &&
      true) = true
    rw [Json.isExact_toNat, Json.isExact_toNat]
    rfl

/-! ## Sequences -/

theorem read?_writeAll {os : List Operator} (h : ∀ o ∈ os, o.IsFreeOfDoubles) :
    Json.read? (writeAll os) =
      if (Json.arr (os.map toJson)).depth ≤ 127 then some (.arr (os.map toJson)) else none :=
  Json.read?_compact (Json.areExact_map fun o ho => isExact_toJson (h o ho))

/-- A sequence of operators without doubles is read back from its JSON text, whatever its numbers
and texts are, if brackets stand at most 127 deep inside one another; else the text is refused. -/
theorem readAll?_writeAll {os : List Operator} (h : ∀ o ∈ os, o.IsFreeOfDoubles) :
    readAll? (writeAll os) =
      if (Json.arr (os.map toJson)).depth ≤ 127 then some os else none := by
  rw [readAll?, read?_writeAll h]
  by_cases hdepth : (Json.arr (os.map toJson)).depth ≤ 127
  · rw [if_pos hdepth, if_pos hdepth]
    exact Json.list?_map fun o _ => o.ofJson?_toJson
  · rw [if_neg hdepth, if_neg hdepth]
    rfl

/-- The bounds of both kinds of numbers, characters that are escaped, and an alias. -/
theorem readAll?_writeAll_escapes :
    let os := [load ⟨"sales \"of\" \x01", "s"⟩,
      filter "a = 'x\\y'",
      project [⟨.inList (.literal (.int Int64.minValue)) [.literal (.str "\n\t\"é"), .literal .null,
        .not (.literal (.bool true))] true, "text", "label\r"⟩],
      limit 0 18446744073709551615]
    (∀ o ∈ os, o.IsFreeOfDoubles) ∧ readAll? (writeAll os) = some os :=
  have h := by decide
  ⟨h, (readAll?_writeAll h).trans (if_pos (by decide))⟩

/-- A column behind so many negations. -/
def negations : Nat → Expr
  | 0 => .column "a"
  | n + 1 => .not (negations n)

/-- Each negation is a choice with a record. -/
theorem depth_negations (n : Nat) : (negations n).toJson.depth = 2 * n + 2 := by
  induction n with
  | zero => rfl
  | succ n ih =>
    simp only [negations, Expr.toJson, choice, Json.depth, Json.depthOfFields, ih]
    omega

/-- No double occurs in sixty-one negations of a column, and yet they are not read back. -/
theorem readAll?_writeAll_negations :
    let os := [load ⟨"T", "T"⟩, project [⟨negations 61, "text", "text"⟩]]
    (∀ o ∈ os, o.IsFreeOfDoubles) ∧ readAll? (writeAll os) ≠ some os := by
  have h : ∀ o ∈ [load ⟨"T", "T"⟩, project [⟨negations 61, "text", "text"⟩]],
      o.IsFreeOfDoubles := by decide
  refine ⟨h, ?_⟩
  rw [readAll?, read?_writeAll h, if_neg]
  · exact nofun
  · simp only [List.map_cons, List.map_nil, toJson, Item.toJson, choice, Json.depth,
      Json.depthOfItems, Json.depthOfFields, depth_negations]
    omega

end Operator

end TableQuery
